/-
**RAM arrays: the values of an honest prover.**

The builder follows the array while the calls are made: `state` has the witness of the value that
every cell holds.  Calls are given witnesses of the circuit, never the record of an access, which no
call returns.  The values that the builder computes, with records made from `eta`, satisfy all the
gates when every index witness has the value of a cell; `index` is cut to 32 bits, so another value
fails.
-/

import Aztec.RamArray

open List Option

namespace RamArray

open UltraGates UltraMemory MemoryChecking

/-! ### Calls with witnesses of the circuit -/

def Given (s : Builder) (records : List RamRecord) (witness : ℕ) : Prop :=
  witness < s.values.length ∧ ∀ r ∈ records, r.recordWitness ≠ witness

def Call.Admissible (s : Builder) (records : List RamRecord) : Call → Prop
  | .initRamElement _ valueWitness => Given s records valueWitness
  | .readRamArray indexWitness => Given s records indexWitness
  | .writeRamArray indexWitness valueWitness =>
    Given s records indexWitness ∧ Given s records valueWitness
  | _ => True

def Admissible (s : Builder × RamTranscript) : List Call → Prop
  | [] => True
  | call :: calls =>
    call.Admissible s.1 s.2.records ∧ ∀ t, step s call = some t → Admissible t calls

/-! ### What the state says -/

def stored (s : Builder) (record : RamRecord) : Access ℕ ℕ FF where
  index := record.index
  time := record.timestamp
  value := s.getVariable record.valueWitness
  isWrite := decide (record.accessType = .write)

/-- **The state of an array is what its records say**, and records are apart from other
variables. -/
structure Tracked (arraySize : ℕ) (s : Builder) (array : RamTranscript) : Prop
    extends Recorded arraySize s array where
  lt : ∀ r ∈ array.records, r.recordWitness < s.values.length
  nodup : (array.records.map RamRecord.recordWitness).Nodup
  indexGiven : ∀ r ∈ array.records, Given s array.records r.indexWitness
  valueGiven : ∀ r ∈ array.records, Given s array.records r.valueWitness
  constants : ∀ c ∈ s.constants, ∀ r ∈ array.records, r.recordWitness ≠ c.2
  gates : ∀ g ∈ s.gates, (∃ c ∈ s.constants, g = fixWitness zeroIdx c.2 c.1) ∨
    ∃ r ∈ array.records, g = accessGate r
  index : ∀ r ∈ array.records, r.index < arraySize
  indexValue : ∀ r ∈ array.records, s.getVariable r.indexWitness = r.index ∨
    r.index = indexOf s r.indexWitness
  consistent : Consistent (array.records.map (stored s))
  state : ∀ i witness, array.state[i]? = some (some witness) → witness < s.values.length ∧
    Stored (array.records.map (stored s)) i (s.getVariable witness)

section Tracked

variable {arraySize : ℕ} {s s' : Builder} {array : RamTranscript} {records : List RamRecord}

variable {witness valueWitness index : ℕ} {record : RamRecord} {state : List (Option ℕ)}
  {t u : Builder × RamTranscript}

theorem Given.extends (h : Given s records witness) (hextends : Extends s s') :
    Given s' records witness :=
  ⟨h.1.trans_le hextends.length_le, h.2⟩

theorem indexOf_extends (hextends : Extends s s') (h : witness < s.values.length) :
    indexOf s' witness = indexOf s witness := by
  rw [indexOf, indexOf, hextends.getVariable h]

theorem map_stored (hextends : Extends s s') (h : ∀ r ∈ records, r.valueWitness < s.values.length) :
    records.map (stored s') = records.map (stored s) := by
  refine map_congr_left fun r hr => ?_
  rw [stored, stored, hextends.getVariable (h r hr)]

theorem tracked_new (arraySize : ℕ) : Tracked arraySize .new (createRamArray arraySize) where
  toRecorded := .new arraySize
  lt _ hr := absurd hr not_mem_nil
  nodup := nodup_nil
  indexGiven _ hr := absurd hr not_mem_nil
  valueGiven _ hr := absurd hr not_mem_nil
  constants _ _ _ hr := absurd hr not_mem_nil
  gates _ hg := .inl ⟨(0, zeroIdx), mem_cons_self, mem_singleton.1 hg⟩
  index _ hr := absurd hr not_mem_nil
  indexValue _ hr := absurd hr not_mem_nil
  consistent _ hr := absurd hr not_mem_nil
  state i witness h := by
    rw [createRamArray, List.getElem?_replicate] at h
    split at h <;> cases h

section

variable (h : Tracked arraySize s array)
include h

theorem Tracked.extends (hextends : Extends s s') (hvalid : s'.Valid)
    (hconstants : ∀ c ∈ s'.constants, c ∈ s.constants ∨ s.values.length ≤ c.2)
    (hgates : ∀ g ∈ s'.gates, g ∈ s.gates ∨ ∃ c ∈ s'.constants, g = fixWitness zeroIdx c.2 c.1) :
    Tracked arraySize s' array where
  toRecorded := h.toRecorded.extends hextends hvalid
  lt r hr := (h.lt r hr).trans_le hextends.length_le
  nodup := h.nodup
  indexGiven r hr := (h.indexGiven r hr).extends hextends
  valueGiven r hr := (h.valueGiven r hr).extends hextends
  constants c hc r hr := by
    rcases hconstants c hc with hc | hle
    · exact h.constants c hc r hr
    · exact ((h.lt r hr).trans_le hle).ne
  gates g hg := by
    rcases hgates g hg with hg | hg
    · exact (h.gates g hg).imp (fun ⟨c, hc, heq⟩ => ⟨c, hextends.constants c hc, heq⟩) id
    · exact .inl hg
  index := h.index
  indexValue r hr := by
    have hlt := (h.indexGiven r hr).1
    rw [hextends.getVariable hlt, indexOf_extends hextends hlt]
    exact h.indexValue r hr
  consistent := by
    rw [map_stored hextends fun r hr => (h.valueGiven r hr).1]
    exact h.consistent
  state i witness hstate := by
    obtain ⟨hlt, hstored⟩ := h.state i witness hstate
    rw [map_stored hextends fun r hr => (h.valueGiven r hr).1, hextends.getVariable hlt]
    exact ⟨hlt.trans_le hextends.length_le, hstored⟩

theorem Tracked.addVariable (value : FF) : Tracked arraySize (s.addVariable value).1 array :=
  h.extends (extends_addVariable value) (h.valid.extends (extends_addVariable value) rfl)
    (fun _ hc => .inl hc) fun _ hg => .inl hg

theorem Tracked.putConstantVariable (value : FF) :
    Tracked arraySize (s.putConstantVariable value).1 array := by
  obtain ⟨hconstants, hgates⟩ := mem_putConstantVariable (s := s) value
  exact h.extends (extends_putConstantVariable value) (h.valid.putConstantVariable value).1
    hconstants hgates

theorem Tracked.given_constant {c : FF × ℕ} (hc : c ∈ s.constants) : Given s array.records c.2 :=
  ⟨h.valid.lt c hc, fun r hr => h.constants c hc r hr⟩

end

theorem Given.append (h : Given s records witness) (hextends : Extends s s')
    (hrecord : record.recordWitness = s.values.length) :
    Given s' (records ++ [record]) witness := by
  refine ⟨(h.extends hextends).1, fun r hr => ?_⟩
  rcases mem_append.1 hr with hr | hr
  · exact h.2 r hr
  · rw [mem_singleton.1 hr, hrecord]
    exact h.1.ne'

theorem Tracked.append (h : Tracked arraySize s array) {record : RamRecord}
    {state : List (Option ℕ)}
    (hnew : Recorded arraySize ((s.addVariable 0).1.addGate (accessGate record))
      ⟨state, array.records ++ [record], array.accessCount + 1⟩)
    (hrecord : record.recordWitness = s.values.length)
    (htimestamp : record.timestamp = array.accessCount)
    (hindexGiven : Given s array.records record.indexWitness)
    (hvalueGiven : Given s array.records record.valueWitness) (hindex : record.index < arraySize)
    (hindexValue : s.getVariable record.indexWitness = record.index ∨
      record.index = indexOf s record.indexWitness) (hread : record.accessType = .read →
      Stored (array.records.map (stored s)) record.index (s.getVariable record.valueWitness))
    (hstate : ∀ i witness, state[i]? = some (some witness) →
      (i = record.index ∧ record.accessType = .write ∧ witness = record.valueWitness) ∨
        (record.accessType = .write → record.index ≠ i) ∧ array.state[i]? = some (some witness)) :
    Tracked arraySize ((s.addVariable 0).1.addGate (accessGate record))
      ⟨state, array.records ++ [record], array.accessCount + 1⟩ := by
  have hextends : Extends s ((s.addVariable 0).1.addGate (accessGate record)) :=
    (extends_addVariable 0).trans (extends_addGate _)
  have hgiven : ∀ {witness}, Given s array.records witness →
      Given ((s.addVariable 0).1.addGate (accessGate record)) (array.records ++ [record]) witness :=
    fun hwitness => hwitness.append hextends hrecord
  -- the accesses so far, and the new one
  have hmap : (array.records ++ [record]).map
      (stored ((s.addVariable 0).1.addGate (accessGate record))) =
        array.records.map (stored s) ++ [stored s record] := by
    rw [map_stored hextends, map_append, map_singleton]
    intro r hr
    rcases mem_append.1 hr with hr | hr
    · exact (h.valueGiven r hr).1
    · exact (mem_singleton.1 hr) ▸ hvalueGiven.1
  have hlate : ∀ a ∈ array.records.map (stored s), a.time < (stored s record).time := by
    intro a ha
    obtain ⟨r, hr, rfl⟩ := mem_map.1 ha
    exact (h.timestamp_lt hr).trans_eq htimestamp.symm
  have hold : ∀ {P : RamRecord → Prop}, (∀ r ∈ array.records, P r) → P record →
      ∀ r ∈ array.records ++ [record], P r :=
    fun hP hlast => forall_mem_append.2 ⟨hP, forall_mem_singleton.2 hlast⟩
  refine
    { toRecorded := hnew
      lt := hold (fun r hr => (h.lt r hr).trans_le hextends.length_le) ?_
      nodup := ?_
      indexGiven := hold (fun r hr => hgiven (h.indexGiven r hr)) (hgiven hindexGiven)
      valueGiven := hold (fun r hr => hgiven (h.valueGiven r hr)) (hgiven hvalueGiven)
      constants := fun c hc => (hgiven (h.given_constant hc)).2
      gates := ?_
      index := hold h.index hindex
      indexValue := hold ?_ ?_
      consistent := ?_
      state := ?_ }
  · rw [hrecord]
    exact (Nat.lt_succ_self _).trans_eq (length_addVariable 0).symm
  · rw [map_append, map_singleton, nodup_append]
    refine ⟨h.nodup, nodup_singleton _, fun x hx y hy => ?_⟩
    obtain ⟨r, hr, rfl⟩ := mem_map.1 hx
    rw [mem_singleton.1 hy, hrecord]
    exact (h.lt r hr).ne
  · intro g hg
    rcases mem_append.1 hg with hg | hg
    · refine (h.gates g hg).imp id fun ⟨r, hr, heq⟩ => ⟨r, mem_append_left _ hr, heq⟩
    · exact .inr ⟨record, by simp, mem_singleton.1 hg⟩
  · intro r hr
    rw [hextends.getVariable (h.indexGiven r hr).1, indexOf_extends hextends (h.indexGiven r hr).1]
    exact h.indexValue r hr
  · rw [hextends.getVariable hindexGiven.1, indexOf_extends hextends hindexGiven.1]
    exact hindexValue
  · rw [hmap]
    refine h.consistent.append hlate fun hisRead => hread ?_
    cases htype : record.accessType with
    | read => rfl
    | write => exact absurd htype (of_decide_eq_false hisRead)
  · intro i witness hcell
    rw [hmap]
    rcases hstate i witness hcell with ⟨rfl, hwrite, rfl⟩ | ⟨hother, hcell⟩
    · rw [hextends.getVariable hvalueGiven.1]
      exact ⟨hvalueGiven.1.trans_le hextends.length_le,
        Stored.append_write hlate (decide_eq_true hwrite)⟩
    · obtain ⟨hlt, hstored⟩ := h.state i witness hcell
      rw [hextends.getVariable hlt]
      exact ⟨hlt.trans_le hextends.length_le,
        hstored.append fun hwrite => hother (of_decide_eq_true hwrite)⟩

theorem Tracked.addRecord (h : Tracked arraySize s array)
    {indexWitness valueWitness index : ℕ} {accessType : AccessType} (state : List (Option ℕ))
    (hlength : state.length = array.state.length)
    (hcount : state.countP isSome ≤ array.state.countP isSome + 1)
    (hindexGiven : Given s array.records indexWitness)
    (hvalueGiven : Given s array.records valueWitness) (hindex : index < arraySize)
    (hindexValue : s.getVariable indexWitness = index ∨ index = indexOf s indexWitness)
    (hread : accessType = .read →
      Stored (array.records.map (stored s)) index (s.getVariable valueWitness))
    (hstate : ∀ i witness, state[i]? = some (some witness) →
      (i = index ∧ accessType = .write ∧ witness = valueWitness) ∨
        (accessType = .write → index ≠ i) ∧ array.state[i]? = some (some witness)) :
    Tracked arraySize (addRecord s array indexWitness valueWitness index accessType).1
      { (addRecord s array indexWitness valueWitness index accessType).2 with state := state } := by
  have hextends := extends_putConstantVariable (s := s) array.accessCount
  refine (h.putConstantVariable array.accessCount).append
    (h.toRecorded.addRecord state hlength hcount) rfl rfl (hindexGiven.extends hextends)
    (hvalueGiven.extends hextends) hindex ?_ (fun htype => ?_) hstate
  · show (s.putConstantVariable array.accessCount).1.getVariable indexWitness = index ∨
      index = indexOf (s.putConstantVariable array.accessCount).1 indexWitness
    rw [hextends.getVariable hindexGiven.1, indexOf_extends hextends hindexGiven.1]
    exact hindexValue
  · rw [map_stored hextends fun r hr => (h.valueGiven r hr).1, hextends.getVariable hvalueGiven.1]
    exact hread htype

theorem state_set {i : ℕ} (h : (state.set index (some valueWitness))[i]? = some (some witness)) :
    (i = index ∧ AccessType.write = .write ∧ witness = valueWitness) ∨
      (AccessType.write = .write → index ≠ i) ∧ state[i]? = some (some witness) := by
  rw [List.getElem?_set] at h
  split at h
  · next heq =>
    split at h
    · exact .inl ⟨heq.symm, rfl, (some_inj.1 (some_inj.1 h)).symm⟩
    · exact absurd h (some_ne_none _).symm
  · next hne => exact .inr ⟨fun _ => hne, h⟩

theorem Tracked.initRamElement (h : Tracked arraySize s array) {indexValue : ℕ}
    (hgiven : Given s array.records valueWitness)
    (hcall : initRamElement s array indexValue valueWitness = some t) :
    Tracked arraySize t.1 t.2 := by
  have hindex : ∃ u,
      u = (if indexValue = 0 then (s, zeroIdx) else s.putConstantVariable indexValue) ∧
      Tracked arraySize u.1 array ∧ Given u.1 array.records valueWitness ∧
        ((indexValue : FF), u.2) ∈ u.1.constants := by
    refine ⟨_, rfl, ?_⟩
    split
    · next heq =>
      refine ⟨h, hgiven, ?_⟩
      rw [heq, Nat.cast_zero]
      exact h.valid.zero
    · exact ⟨h.putConstantVariable indexValue,
        hgiven.extends (extends_putConstantVariable _), (h.valid.putConstantVariable _).2⟩
  obtain ⟨u, hu, htracked, hgiven', hconstant⟩ := hindex
  simp only [RamArray.initRamElement, ← hu] at hcall
  split at hcall
  · next hcell =>
    obtain rfl := some_inj.1 hcall
    have hlt : indexValue < arraySize := h.size ▸ (List.getElem?_eq_some_iff.1 hcell).1
    exact htracked.addRecord _ length_set (countP_set_le _ _ _)
      (htracked.given_constant hconstant) hgiven' hlt (.inl (htracked.valid.value _ hconstant))
      (fun h => AccessType.noConfusion h) fun i witness => state_set
  · exact absurd hcall (some_ne_none t).symm

theorem Tracked.step (h : Tracked arraySize s array) {call : Call}
    (hadmissible : call.Admissible s array.records) (hstep : step (s, array) call = some t) :
    Tracked arraySize t.1 t.2 := by
  cases call with
  | addVariable value =>
    obtain rfl := some_inj.1 hstep
    exact h.addVariable value
  | putConstantVariable value =>
    obtain rfl := some_inj.1 hstep
    exact h.putConstantVariable value
  | initRamElement indexValue valueWitness => exact h.initRamElement hadmissible hstep
  | readRamArray indexWitness =>
    simp only [RamArray.step, RamArray.readRamArray] at hstep
    split at hstep
    · next witness hcell =>
      obtain rfl := some_inj.1 hstep
      have hextends := extends_addVariable (s := s) (s.getVariable witness)
      have hlt : indexOf s indexWitness < arraySize :=
        h.size ▸ (List.getElem?_eq_some_iff.1 hcell).1
      have hnew : Given (s.addVariable (s.getVariable witness)).1 array.records
          s.values.length :=
        ⟨(Nat.lt_succ_self _).trans_eq (length_addVariable _).symm, fun r hr => (h.lt r hr).ne⟩
      refine (h.addVariable _).addRecord array.state rfl (Nat.le_succ _)
        (hadmissible.extends hextends) hnew hlt
        (.inr (indexOf_extends hextends hadmissible.1).symm) (fun _ => ?_)
        fun i witness hcell => .inr ⟨fun h => AccessType.noConfusion h, hcell⟩
      rw [getVariable_addVariable, map_stored hextends fun r hr => (h.valueGiven r hr).1]
      exact (h.state _ _ hcell).2
    · exact absurd hstep (some_ne_none t).symm
  | writeRamArray indexWitness valueWitness =>
    simp only [RamArray.step, RamArray.writeRamArray] at hstep
    split at hstep
    · next _ hcell =>
      obtain rfl := some_inj.1 hstep
      have hlt : indexOf s indexWitness < arraySize :=
        h.size ▸ (List.getElem?_eq_some_iff.1 hcell).1
      exact h.addRecord _ length_set (countP_set_le _ _ _) hadmissible.1 hadmissible.2 hlt
        (.inr rfl) (fun h => AccessType.noConfusion h) fun i witness => state_set
    · exact absurd hstep (some_ne_none t).symm

theorem Tracked.run {calls : List Call} (h : Tracked arraySize u.1 u.2)
    (hadmissible : Admissible u calls) (hrun : calls.foldlM RamArray.step u = some t) :
    Tracked arraySize t.1 t.2 := by
  induction calls generalizing u with
  | nil => exact some_inj.1 hrun ▸ h
  | cons call calls ih =>
    rw [foldlM_cons] at hrun
    obtain ⟨m, hm, ht⟩ := bind_eq_some_iff.1 hrun
    exact ih (h.step hadmissible.1 hm) (hadmissible.2 m hm) ht

theorem Tracked.initRest (h : Tracked arraySize u.1 u.2) (hrest : initRest u = some t) :
    Tracked arraySize t.1 t.2 := by
  refine foldlM_keeps (P := fun t => Tracked arraySize t.1 t.2) (fun s i t hs hstep => ?_) h hrest
  split at hstep
  · exact hs.initRamElement (hs.given_constant hs.valid.zero) hstep
  · exact some_inj.1 hstep ▸ hs

end Tracked

/-! ### The sorted records -/

abbrev RamTranscript.ordered (array : RamTranscript) : List RamRecord :=
  array.records.mergeSort fun record other => !other.lt record

theorem RamTranscript.ordered_perm (array : RamTranscript) : array.ordered.Perm array.records :=
  mergeSort_perm _ _

structure Copied (s s' : Builder) (record sorted : RamRecord) : Prop where
  index : sorted.index = record.index
  timestamp : sorted.timestamp = record.timestamp
  accessType : sorted.accessType = record.accessType
  indexWitness : s'.getVariable sorted.indexWitness = record.index
  timestampWitness : s'.getVariable sorted.timestampWitness = record.timestamp
  valueWitness : s'.getVariable sorted.valueWitness = s.getVariable record.valueWitness

theorem copied_sortedRecords {s₀ s s' : Builder} {records : List RamRecord} (hs : Extends s₀ s)
    (hlt : ∀ r ∈ records, r.valueWitness < s₀.values.length)
    (hextends : Extends (sortedRecords s records).1 s') :
    List.Forall₂ (Copied s₀ s') records (sortedRecords s records).2 := by
  induction records generalizing s with
  | nil => exact .nil
  | cons record records ih =>
    have hrest : Extends (sortedRecord s record).1 s' :=
      (extends_sortedRecords _ records).1.trans hextends
    have hvalue : Extends (((s.addVariable record.index).1.addVariable
        record.timestamp).1.addVariable (s.getVariable record.valueWitness)).1 s' :=
      (extends_addVariable (0 : FF)).trans hrest
    have htimestamp : Extends ((s.addVariable record.index).1.addVariable record.timestamp).1 s' :=
      (extends_addVariable _).trans hvalue
    have hindex : Extends (s.addVariable record.index).1 s' :=
      (extends_addVariable _).trans htimestamp
    have hfirst : Extends s (sortedRecord s record).1 :=
      (((extends_addVariable _).trans (extends_addVariable _)).trans (extends_addVariable _)).trans
        (extends_addVariable 0)
    refine .cons ⟨rfl, rfl, rfl, hindex.getVariable_add, htimestamp.getVariable_add,
      hvalue.getVariable_add.trans (hs.getVariable (hlt record mem_cons_self))⟩ ?_
    exact ih (hs.trans hfirst) (fun r hr => hlt r (mem_cons_of_mem _ hr)) hextends

theorem sortedRecord_snd (s : Builder) (record : RamRecord) : (sortedRecord s record).2 =
    { record with
      indexWitness := s.values.length, timestampWitness := s.values.length + 1,
      valueWitness := s.values.length + 2, recordWitness := s.values.length + 3 } := by
  simp [sortedRecord, Builder.addVariable]

theorem sortedRecords_cons (s : Builder) (record : RamRecord) (records : List RamRecord) :
    (sortedRecords s (record :: records)).2 =
      (sortedRecord s record).2 :: (sortedRecords (sortedRecord s record).1 records).2 :=
  rfl

theorem witnesses_sortedRecords (s : Builder) (records : List RamRecord) :
    ∀ r ∈ (sortedRecords s records).2, ∃ k, r.indexWitness = s.values.length + 4 * k ∧
      r.timestampWitness = s.values.length + 4 * k + 1 ∧
        r.valueWitness = s.values.length + 4 * k + 2 ∧
          r.recordWitness = s.values.length + 4 * k + 3 ∧
            r.recordWitness < (sortedRecords s records).1.values.length := by
  induction records generalizing s with
  | nil => exact fun r hr => absurd hr not_mem_nil
  | cons record records ih =>
    have hlength : (sortedRecord s record).1.values.length = s.values.length + 4 := by
      simp only [sortedRecord, length_addVariable]
    intro r hr
    rw [sortedRecords_cons] at hr
    rcases mem_cons.1 hr with rfl | hr
    · have hle := (extends_sortedRecords (sortedRecord s record).1 records).1.length_le
      rw [hlength] at hle
      rw [sortedRecord_snd]
      exact ⟨0, rfl, rfl, rfl, rfl, hle⟩
    · obtain ⟨k, hindex, htimestamp, hvalue, hrecord, hlt⟩ := ih (sortedRecord s record).1 r hr
      exact ⟨k + 1, by omega, by omega, by omega, by omega, hlt⟩

theorem pairwise_sortedRecords (s : Builder) (records : List RamRecord) :
    ((sortedRecords s records).2.map RamRecord.recordWitness).Pairwise (· < ·) := by
  induction records generalizing s with
  | nil => exact .nil
  | cons record records ih =>
    rw [sortedRecords_cons]
    refine pairwise_cons.2 ⟨fun w hw => ?_, ih (sortedRecord s record).1⟩
    obtain ⟨r, hr, rfl⟩ := mem_map.1 hw
    obtain ⟨k, -, -, -, hrecord, -⟩ := witnesses_sortedRecords _ _ r hr
    have hlength : (sortedRecord s record).1.values.length = s.values.length + 4 := by
      simp only [sortedRecord, length_addVariable]
    have hfirst : (sortedRecord s record).2.recordWitness = s.values.length + 3 := by
      rw [sortedRecord_snd]
    omega

variable {a b : RamRecord} {v : ℕ → FF} {maxTimestamp : ℕ} {calls : List Call} {p : Processed}

theorem RamRecord.not_lt_iff : (!b.lt a) = true ↔
    ¬(b.index < a.index ∨ b.index = a.index ∧ b.timestamp < a.timestamp) := by
  rw [RamRecord.lt, Bool.not_eq_true', ← Bool.not_eq_true, Bool.or_eq_true, Bool.and_eq_true,
    decide_eq_true_iff, decide_eq_true_iff, beq_iff_eq]

theorem Recorded.pairwise_mergeSort {arraySize : ℕ} {s : Builder} {array : RamTranscript}
    (h : Recorded arraySize s array) :
    array.ordered.Pairwise fun a b =>
      Before (stored s a) (stored s b) := by
  have hsorted : array.ordered.Pairwise
      fun a b => (!b.lt a) = true := List.pairwise_mergeSort
    (fun a b c hab hbc => by
      rw [RamRecord.not_lt_iff] at hab hbc ⊢
      omega)
    (fun a b => by
      rw [Bool.or_eq_true, RamRecord.not_lt_iff, RamRecord.not_lt_iff]
      omega) array.records
  have hdistinct : array.ordered.Pairwise
      fun a b => a.timestamp ≠ b.timestamp := by
    have hnodup : (array.records.map RamRecord.timestamp).Nodup := by
      rw [h.timestamps]
      exact nodup_range
    exact pairwise_map.1
      (((mergeSort_perm array.records _).map RamRecord.timestamp).nodup_iff.2 hnodup)
  refine (hsorted.and hdistinct).imp fun {a b} hab => ?_
  have hlt := RamRecord.not_lt_iff.1 hab.1
  have hne := hab.2
  show a.index < b.index ∨ a.index = b.index ∧ a.timestamp < b.timestamp
  omega

/-! ### The differences of timestamps -/

/-- Sorted records that follow each other: the same index later, or the next index. -/
def Follows (a b : RamRecord) : Prop :=
  b.index = a.index ∧ a.timestamp < b.timestamp ∨ b.index = a.index + 1

theorem timestampDelta_eq (h : Follows a b)
    (ha : v a.indexWitness = a.index ∧ v a.timestampWitness = a.timestamp)
    (hb : v b.indexWitness = b.index ∧ v b.timestampWitness = b.timestamp) :
    (1 - (v b.indexWitness - v a.indexWitness)) *
      (v b.timestampWitness - v a.timestampWitness) = timestampDelta a b := by
  rw [ha.1, ha.2, hb.1, hb.2, timestampDelta]
  rcases h with ⟨hindex, htime⟩ | hindex
  · rw [if_pos hindex.symm, hindex, Nat.cast_sub htime.le]
    ring
  · rw [if_neg (by omega), hindex, Nat.cast_succ]
    ring

theorem val_timestampDelta (hmax : maxTimestamp < 2 ^ 32) (hb : b.timestamp ≤ maxTimestamp) :
    (timestampDelta a b).val ≤ maxTimestamp := by
  rw [timestampDelta]
  split
  · rw [val_natCast (by omega)]
    omega
  · rw [ZMod.val_zero]
    exact Nat.zero_le _

theorem differences_timestampDeltas {s : Builder} {sorted : List RamRecord}
    (hmax : maxTimestamp < 2 ^ 32)
    (hdeltas : ∀ w ∈ (timestampDeltas s sorted).2, v w = (timestampDeltas s sorted).1.getVariable w)
    (hvalues : ∀ r ∈ sorted, v r.indexWitness = r.index ∧ v r.timestampWitness = r.timestamp)
    (htimes : ∀ r ∈ sorted, r.timestamp ≤ maxTimestamp) (hchain : sorted.IsChain Follows) :
    Differences v sorted (timestampDeltas s sorted).2 ∧
      ∀ w ∈ (timestampDeltas s sorted).2, (v w).val ≤ maxTimestamp := by
  induction sorted generalizing s with
  | nil => exact ⟨trivial, fun w hw => absurd hw not_mem_nil⟩
  | cons a sorted ih =>
    cases sorted with
    | nil => exact ⟨trivial, fun w hw => absurd hw not_mem_nil⟩
    | cons b rest =>
      obtain ⟨hfollows, htail⟩ := isChain_cons_cons.1 hchain
      have hb : b ∈ a :: b :: rest := mem_cons_of_mem _ mem_cons_self
      obtain ⟨hdifferences, hranges⟩ := ih (s := (s.addVariable (timestampDelta a b)).1)
        (fun w hw => hdeltas w (mem_cons_of_mem _ hw))
        (fun r hr => hvalues r (mem_cons_of_mem _ hr))
        (fun r hr => htimes r (mem_cons_of_mem _ hr)) htail
      have hdelta : v (s.addVariable (timestampDelta a b)).2 = timestampDelta a b := by
        have hextends := (extends_timestampDeltas (s.addVariable (timestampDelta a b)).1
          (b :: rest)).1
        exact (hdeltas _ mem_cons_self).trans hextends.getVariable_add
      have hidentity := timestampDelta_eq hfollows (hvalues a mem_cons_self) (hvalues b hb)
      refine ⟨⟨hidentity.trans hdelta.symm, hdifferences⟩, fun w hw => ?_⟩
      rcases mem_cons.1 hw with rfl | hw
      · exact hdelta ▸ val_timestampDelta hmax (htimes b hb)
      · exact hranges w hw

theorem le_timestampDeltas (s : Builder) (sorted : List RamRecord) :
    ∀ w ∈ (timestampDeltas s sorted).2, s.values.length ≤ w := by
  induction sorted generalizing s with
  | nil => exact fun w hw => absurd hw not_mem_nil
  | cons a sorted ih =>
    cases sorted with
    | nil => exact fun w hw => absurd hw not_mem_nil
    | cons b rest =>
      intro w hw
      rcases mem_cons.1 hw with rfl | hw
      · exact le_rfl
      · exact (extends_addVariable _).length_le.trans
          (ih (s.addVariable (timestampDelta a b)).1 w hw)

/-! ### The values of an honest prover -/

def RamRecord.flag (record : RamRecord) : FF := if record.accessType = .write then 1 else 0

def RamRecord.row (record : RamRecord) : Row :=
  ⟨record.indexWitness, record.timestampWitness, record.valueWitness, record.recordWitness,
    record.flag⟩

/-- **The values of an honest prover.** -/
def honestAssignment (eta : FF) (p : Processed) : ℕ → FF :=
  honest eta p.builder.getVariable ((p.records ++ p.sorted).map RamRecord.row)

section Honest

variable {arraySize : ℕ} {s : Builder} {array : RamTranscript} {eta : FF}

theorem extends_sortArray : Extends s (sortArray s array).builder where
  values := by
    obtain ⟨rest, hrest⟩ := (extends_sortedRecords s
      array.ordered).1.values
    obtain ⟨rest', hrest'⟩ := (extends_timestampDeltas (sortedRecords s
      array.ordered).1
        (sortArray s array).sorted).1.values
    exact ⟨rest ++ rest', hrest'.trans (by rw [hrest, append_assoc])⟩
  constants c hc := by
    have hconstants := (extends_timestampDeltas (sortedRecords s
      array.ordered).1
        (sortArray s array).sorted).2.1
    rw [(extends_sortedRecords s _).2.1] at hconstants
    exact hconstants ▸ hc
  gates := ⟨_, gates_sortArray⟩

variable {r : RamRecord} {w : ℕ}

theorem mem_sorted (hr : r ∈ (sortArray s array).sorted) :
    ∃ k, r.indexWitness = s.values.length + 4 * k ∧
      r.timestampWitness = s.values.length + 4 * k + 1 ∧
        r.valueWitness = s.values.length + 4 * k + 2 ∧
          r.recordWitness = s.values.length + 4 * k + 3 ∧ r.recordWitness <
            (sortedRecords s array.ordered).1.values.length :=
  witnesses_sortedRecords s _ r hr

theorem honestAssignment_of_ne (hrecords : ∀ r ∈ array.records, r.recordWitness ≠ w)
    (hsorted : ∀ r ∈ (sortArray s array).sorted, r.recordWitness ≠ w) :
    honestAssignment eta (sortArray s array) w = (sortArray s array).builder.getVariable w := by
  refine UltraMemory.honest_of_ne fun row hrow => ?_
  obtain ⟨r, hr, rfl⟩ := mem_map.1 hrow
  exact (mem_append.1 hr).elim (hrecords r) (hsorted r)

theorem honestAssignment_given (hw : Given s array.records w) :
    honestAssignment eta (sortArray s array) w = s.getVariable w := by
  rw [honestAssignment_of_ne hw.2, extends_sortArray.getVariable hw.1]
  intro r hr
  obtain ⟨k, -, -, -, hrecord, -⟩ := mem_sorted hr
  have := hw.1
  omega

variable (h : Tracked arraySize s array)
include h

theorem Tracked.nodup_rows : (((array.records ++ (sortArray s array).sorted).map RamRecord.row).map
      Row.recordWitness).Nodup := by
  have hmap : ((array.records ++ (sortArray s array).sorted).map RamRecord.row).map
      Row.recordWitness = array.records.map RamRecord.recordWitness ++
        (sortArray s array).sorted.map RamRecord.recordWitness := by
    rw [List.map_map, map_append]
    rfl
  rw [hmap, nodup_append]
  refine ⟨h.nodup, (pairwise_sortedRecords s _).imp Nat.ne_of_lt, fun x hx y hy => ?_⟩
  obtain ⟨r, hr, rfl⟩ := mem_map.1 hx
  obtain ⟨r', hr', rfl⟩ := mem_map.1 hy
  obtain ⟨k, -, -, -, hrecord, -⟩ := mem_sorted hr'
  have := h.lt r hr
  omega

theorem Tracked.honest_sorted (hle : s.values.length ≤ w)
    (hw : ∀ k, w ≠ s.values.length + 4 * k + 3) :
    honestAssignment eta (sortArray s array) w = (sortArray s array).builder.getVariable w := by
  refine honestAssignment_of_ne (fun r hr => ((h.lt r hr).trans_le hle).ne) fun r hr heq => ?_
  obtain ⟨k, -, -, -, hrecord, -⟩ := mem_sorted hr
  exact hw k (heq ▸ hrecord)

theorem Tracked.entry_honest (eta : FF) {r : RamRecord}
    (hr : r ∈ array.records ++ (sortArray s array).sorted) {index timestamp value : FF}
    (hindex : honestAssignment eta (sortArray s array) r.indexWitness = index ∧
      (sortArray s array).builder.getVariable r.indexWitness = index)
    (htimestamp : honestAssignment eta (sortArray s array) r.timestampWitness = timestamp ∧
      (sortArray s array).builder.getVariable r.timestampWitness = timestamp)
    (hvalue : honestAssignment eta (sortArray s array) r.valueWitness = value ∧
      (sortArray s array).builder.getVariable r.valueWitness = value) :
    r.entry eta (honestAssignment eta (sortArray s array)) = ⟨index, timestamp, value, r.flag⟩ := by
  have hrecord : honestAssignment eta (sortArray s array) r.recordWitness =
      encode eta index timestamp value r.flag := by
    have hmem : r.row ∈ (array.records ++ (sortArray s array).sorted).map RamRecord.row :=
      mem_map_of_mem hr
    refine (honest_record h.nodup_rows hmem).trans ?_
    rw [RamRecord.row, hindex.2, htimestamp.2, hvalue.2]
  ext
  · exact hindex.1
  · exact htimestamp.1
  · exact hvalue.1
  · simp only [RamRecord.entry, accessType, partialRecord, RamRecord.wires, hrecord, hindex.1,
      htimestamp.1, hvalue.1, encode]
    ring

omit h in
def storedEntry (s : Builder) (record : RamRecord) : Entry :=
  ⟨record.index, record.timestamp, s.getVariable record.valueWitness, record.flag⟩

theorem Tracked.copied : List.Forall₂ (Copied s (sortArray s array).builder)
    array.ordered (sortArray s array).sorted := by
  refine copied_sortedRecords (.refl s) (fun r hr => (h.valueGiven r ?_).1) ?_
  · exact (mergeSort_perm _ _).mem_iff.1 hr
  · obtain ⟨hextends, hconstants, hgates⟩ := extends_timestampDeltas (sortedRecords s
      array.ordered).1 (sortArray s array).sorted
    exact ⟨hextends.values, hextends.constants, ⟨_, gates_sortArray.trans
      (by rw [(extends_sortedRecords s _).2.2])⟩⟩

theorem Tracked.entry_sorted (eta : FF) {sorted : RamRecord}
    (hr : sorted ∈ (sortArray s array).sorted)
    (hcopied : Copied s (sortArray s array).builder r sorted) :
    sorted.entry eta (honestAssignment eta (sortArray s array)) = storedEntry s r := by
  obtain ⟨k, hindex, htimestamp, hvalue, -, -⟩ := mem_sorted hr
  have hentry := h.entry_honest eta (mem_append_right _ hr)
    ⟨(h.honest_sorted (by omega) fun j => by omega).trans hcopied.indexWitness,
      hcopied.indexWitness⟩
    ⟨(h.honest_sorted (by omega) fun j => by omega).trans hcopied.timestampWitness,
      hcopied.timestampWitness⟩
    ⟨(h.honest_sorted (by omega) fun j => by omega).trans hcopied.valueWitness,
      hcopied.valueWitness⟩
  rw [hentry, storedEntry, RamRecord.flag, RamRecord.flag, hcopied.accessType]

theorem Tracked.entries_sorted (eta : FF) : (sortArray s array).sorted.map
        (RamRecord.entry eta (honestAssignment eta (sortArray s array))) =
      array.ordered.map (storedEntry s) := by
  exact map_eq_of_forall₂ h.copied fun _ _ hr hcopied => h.entry_sorted eta hr hcopied

theorem Tracked.isChain_follows (hcells : ∀ i < arraySize, array.state[i]? ≠ some none) :
    array.ordered.IsChain Follows ∧
      ∀ last ∈ array.ordered.getLast?,
        last.index = arraySize - 1 := by
  have hbefore := h.toRecorded.pairwise_mergeSort
  have hperm := array.ordered_perm
  have hall : ∀ i < arraySize, ∃ r ∈ array.ordered, r.index = i := by
    intro i hi
    have hlt : i < array.state.length := h.size.symm ▸ hi
    have hne := hcells i hi
    rw [List.getElem?_eq_getElem hlt, Ne, some_inj] at hne
    obtain ⟨witness, hwitness⟩ := ne_none_iff_exists'.1 hne
    have hcell : array.state[i]? = some (some witness) := by
      rw [List.getElem?_eq_getElem hlt, hwitness]
    obtain ⟨-, w, hw, -, hindex, -⟩ := h.state i witness hcell
    obtain ⟨r, hr, rfl⟩ := mem_map.1 hw
    exact ⟨r, hperm.mem_iff.2 hr, hindex⟩
  obtain ⟨hsteps, hlast⟩ := isChain_of_sorted
    (pairwise_map.2 (hbefore.imp fun hab => hab.elim le_of_lt fun heq => heq.1.le)) hall
    fun r hr => h.index r (hperm.mem_iff.1 hr)
  refine ⟨?_, hlast⟩
  have hchain := hbefore.isChain
  rw [isChain_iff_getElem] at hsteps hchain ⊢
  intro i hi
  refine (hsteps i hi).imp_left fun heq => ⟨heq, ?_⟩
  exact (hchain i hi).time_lt heq.symm

omit h in
theorem neighbours_of_follows {a b : RamRecord} (hfollows : Follows a b)
    (hcopies : Copies (stored s a) (stored s b)) :
    Neighbours (storedEntry s a) (storedEntry s b) := by
  have hflag : ∀ r : RamRecord, r.flag ^ 2 = r.flag := by
    intro r
    rw [RamRecord.flag]
    split <;> ring
  have hstep : Step (a.index : FF) b.index := by
    rw [Step]
    rcases hfollows with ⟨heq, -⟩ | heq
    · rw [heq]
      ring
    · rw [heq, Nat.cast_succ]
      ring
  refine ⟨hstep, hflag a, hflag b, ?_⟩
  simp only [storedEntry]
  rcases hfollows with ⟨heq, -⟩ | heq
  · cases htype : b.accessType with
    | write =>
      rw [RamRecord.flag, if_pos htype]
      ring
    | read =>
      have hvalue : s.getVariable b.valueWitness = s.getVariable a.valueWitness :=
        hcopies heq.symm (by simp [stored, htype])
      rw [hvalue]
      ring
  · rw [heq, Nat.cast_succ]
    ring

theorem Tracked.isChain_neighbours (hcells : ∀ i < arraySize, array.state[i]? ≠ some none) :
    (array.ordered.map
      (storedEntry s)).IsChain Neighbours := by
  have hfollows := (h.isChain_follows hcells).1
  have hperm := array.ordered_perm
  have hcopies := copies_of_consistent (pairwise_map.2 h.toRecorded.pairwise_mergeSort)
    (h.consistent.of_perm (hperm.symm.map (stored s)))
  rw [isChain_map] at hcopies ⊢
  rw [isChain_iff_getElem] at hfollows hcopies ⊢
  exact fun i hi => neighbours_of_follows (hfollows i hi) (hcopies i hi)

theorem Tracked.entry_given (eta : FF) (hr : r ∈ array.records) :
    r.entry eta (honestAssignment eta (sortArray s array)) = ⟨s.getVariable r.indexWitness,
      s.getVariable r.timestampWitness, s.getVariable r.valueWitness, r.flag⟩ := by
  have hgiven : ∀ {w}, Given s array.records w →
      honestAssignment eta (sortArray s array) w = s.getVariable w ∧
        (sortArray s array).builder.getVariable w = s.getVariable w :=
    fun hw => ⟨honestAssignment_given hw, extends_sortArray.getVariable hw.1⟩
  exact h.entry_honest eta (mem_append_left _ hr)
    (hgiven (h.indexGiven r hr)) (hgiven (h.given_constant (h.timestamp r hr)))
    (hgiven (h.valueGiven r hr))

theorem Tracked.holds_calls {alpha : FF} : ∀ g ∈ s.gates, ∀ shifted, Holds alpha eta g
    (wiresOf (honestAssignment eta (sortArray s array)) g) shifted := by
  intro g hg shifted
  rcases h.gates g hg with ⟨c, hc, rfl⟩ | ⟨r, hr, rfl⟩
  · have hvalue : honestAssignment eta (sortArray s array) c.2 = c.1 :=
      (honestAssignment_given (h.given_constant hc)).trans (h.valid.value c hc)
    refine holds_bigAdd.2 ?_
    simp only [wiresOf, fixWitness, createBigAddGate, hvalue]
    ring
  · have hentry := h.entry_given eta hr
    have htype := congrArg Entry.accessType hentry
    cases hread : r.accessType with
    | read =>
      rw [accessGate, if_pos hread]
      refine (holds_memory (.inr (.inl rfl))).2 (htype.trans ?_)
      rw [RamRecord.flag, hread]
      rfl
    | write =>
      rw [accessGate, hread]
      refine (holds_memory (.inr (.inr rfl))).2 (htype.trans ?_)
      rw [RamRecord.flag, hread]
      rfl

theorem Tracked.entry_record (hr : r ∈ array.records) (hbits : arraySize ≤ 2 ^ 32)
    (hindex : (s.getVariable r.indexWitness).val < arraySize) :
    r.entry eta (honestAssignment eta (sortArray s array)) = storedEntry s r := by
  have hvalue : s.getVariable r.indexWitness = r.index := by
    rcases h.indexValue r hr with heq | heq
    · exact heq
    · rw [heq, indexOf, Nat.mod_eq_of_lt (by omega), ZMod.natCast_rightInverse]
  rw [h.entry_given eta hr, hvalue, h.valid.value _ (h.timestamp r hr), storedEntry]

theorem Tracked.honest_deltas : ∀ w ∈ (sortArray s array).deltas,
    honestAssignment eta (sortArray s array) w = (sortArray s array).builder.getVariable w := by
  intro w hw
  have hle := le_timestampDeltas _ _ w hw
  have hsorted := (extends_sortedRecords s
    array.ordered).1.length_le
  refine honestAssignment_of_ne (fun r hr => ?_) fun r hr => ?_
  · exact (((h.lt r hr).trans_le hsorted).trans_le hle).ne
  · obtain ⟨k, -, -, -, -, hlt⟩ := mem_sorted hr
    exact (hlt.trans_le hle).ne

theorem Tracked.accepts (hcells : ∀ i < arraySize, array.state[i]? ≠ some none)
    (hbits : (sortArray s array).builder.values.length ≤ 2 ^ 32)
    (hsize : arraySize ≤ array.accessCount)
    (hindex : ∀ r ∈ array.records, (s.getVariable r.indexWitness).val < arraySize) :
    Accepts (sortArray s array) eta (honestAssignment eta (sortArray s array)) := by
  have hlength : array.accessCount ≤ s.values.length := h.length
  have hbits' : s.values.length ≤ 2 ^ 32 := length_le_sortArray.trans hbits
  have hperm := array.ordered_perm
  obtain ⟨hfollows, hlast⟩ := h.isChain_follows hcells
  have hfollows' : (sortArray s array).sorted.IsChain Follows :=
    isChain_of_forall₂ h.copied hfollows fun a a' b b' hb hb' hab => by
      rwa [Follows, hb.index, hb'.index, hb.timestamp, hb'.timestamp]
  have hsorted : ∀ r ∈ (sortArray s array).sorted, ∃ r' ∈ array.records,
      Copied s (sortArray s array).builder r' r := by
    intro r hr
    obtain ⟨i, hi, rfl⟩ := mem_iff_getElem.1 hr
    have hi' := h.copied.length_eq ▸ hi
    exact ⟨_, hperm.mem_iff.1 (getElem_mem hi'), h.copied.get hi' hi⟩
  have hvalues : ∀ r ∈ (sortArray s array).sorted,
      honestAssignment eta (sortArray s array) r.indexWitness = r.index ∧
        honestAssignment eta (sortArray s array) r.timestampWitness = r.timestamp := by
    intro r hr
    obtain ⟨r', -, hcopied⟩ := hsorted r hr
    have hentry := h.entry_sorted eta hr hcopied
    rw [hcopied.index, hcopied.timestamp]
    exact ⟨congrArg Entry.index hentry, congrArg Entry.timestamp hentry⟩
  have htimes : ∀ r ∈ (sortArray s array).sorted, r.timestamp ≤ array.accessCount - 1 := by
    intro r hr
    obtain ⟨r', hr', hcopied⟩ := hsorted r hr
    have := h.timestamp_lt hr'
    rw [hcopied.timestamp]
    omega
  obtain ⟨hdifferences, hranges⟩ := differences_timestampDeltas
    (v := honestAssignment eta (sortArray s array)) (by omega) h.honest_deltas hvalues htimes
      hfollows'
  refine ⟨fun alpha => ?_, hranges, ?_⟩
  · rw [gates_sortArray]
    refine satisfied_append h.holds_calls ?_
    rw [h.size]
    refine satisfied_sortedGates.2 ⟨?_, ?_, ?_⟩ alpha
    · rw [h.entries_sorted]
      exact h.isChain_neighbours hcells
    · intro last hgetLast
      have hmap := congrArg List.getLast? (h.entries_sorted eta)
      rw [List.getLast?_map, List.getLast?_map, mem_def.1 hgetLast, map_some] at hmap
      obtain ⟨r, hr, hentry⟩ := map_eq_some_iff.1 hmap.symm
      rw [← hlast r hr]
      exact (congrArg Entry.index hentry).symm
    · exact (satisfied_timestampGates length_deltas).2 hdifferences
  · have hrecords : (array.records.map (RamRecord.entry eta
        (honestAssignment eta (sortArray s array)))) = array.records.map (storedEntry s) :=
      map_congr_left fun r hr => h.entry_record hr (by omega) (hindex r hr)
    show (array.records.map _).Perm _
    rw [hrecords, h.entries_sorted]
    exact (hperm.map _).symm

end Honest

theorem tracked_of_circuit {arraySize : ℕ} (hcircuit : circuit arraySize calls = some p)
    (hadmissible : Admissible (.new, createRamArray arraySize) calls) :
    ∃ s array, Tracked arraySize s array ∧ arraySize ≤ array.accessCount ∧
      (∀ i < arraySize, array.state[i]? ≠ some none) ∧ p = sortArray s array := by
  obtain ⟨u, hu, hp⟩ := bind_eq_some_iff.1 hcircuit
  obtain ⟨t, ht, rfl⟩ := map_eq_some_iff.1 hp
  have hrun := (tracked_new arraySize).run (u := (.new, createRamArray arraySize)) hadmissible hu
  obtain ⟨hcells, hcount⟩ := hrun.toRecorded.cells ht
  exact ⟨t.1, t.2, hrun.initRest ht, hcount, hcells, rfl⟩

/-- **The values of an honest prover satisfy the gates, exactly** when every index witness has the
value of a cell. -/
theorem honest_iff {arraySize : ℕ} {eta : FF} (hcircuit : circuit arraySize calls = some p)
    (hadmissible : Admissible (.new, createRamArray arraySize) calls)
    (hbits : p.builder.values.length ≤ 2 ^ 32) : Accepts p eta (honestAssignment eta p) ↔
      ∀ r ∈ p.records, (p.builder.getVariable r.indexWitness).val < arraySize := by
  obtain ⟨s, array, h, hsize, hcells, rfl⟩ := tracked_of_circuit hcircuit hadmissible
  have hcount : arraySize ≤ 2 ^ 32 :=
    (hsize.trans h.length).trans (length_le_sortArray.trans hbits)
  have hvalue : ∀ r ∈ array.records, (sortArray s array).builder.getVariable r.indexWitness =
      s.getVariable r.indexWitness := fun r hr =>
    extends_sortArray.getVariable (h.indexGiven r hr).1
  constructor
  · intro haccepts r hr
    have hmem := haccepts.records.mem_iff.1 (mem_map_of_mem hr)
    rw [h.entries_sorted] at hmem
    obtain ⟨r', hr', hentry⟩ := mem_map.1 hmem
    have hlt := h.index r' ((mergeSort_perm _ _).mem_iff.1 hr')
    have hindex : s.getVariable r.indexWitness = r'.index :=
      (honestAssignment_given (h.indexGiven r hr)).symm.trans (congrArg Entry.index hentry).symm
    rw [hvalue r hr, hindex, val_natCast (by omega)]
    exact hlt
  · intro hindex
    exact h.accepts hcells hbits hsize fun r hr => (hvalue r hr) ▸ hindex r hr

end RamArray
