/-
**Finalisation of range constraints.**

The list of every range is sorted into new variables with the other tag.  Since the values with the
two tags are the same up to order, the variables of the list have values in the range; and when they
do, the builder's values satisfy the gates.
-/

import Aztec.UltraRangeSort

open List
open List (range' replicate)

namespace UltraRange

open UltraGates

/-! ### Processing the lists -/

def members (s : Builder) (targetRange : ℕ) : List ℕ :=
  ((s.rangeList targetRange).map s.realVariableIndex).dedup

/-- Four variables in every gate, and two gates at least. -/
def padding (size : ℕ) : ℕ := (4 - size % 4) % 4 + if size ≤ 4 then 4 else 0

def sortedList (s : Builder) (targetRange : ℕ) : List ℕ :=
  ((members s targetRange).map fun i => (s.getVariable i).val % 2 ^ 32).mergeSort (· ≤ ·)

def sortedIndices (s : Builder) (targetRange : ℕ) : List ℕ :=
  List.replicate (padding (members s targetRange).length) zeroIdx ++
    List.range' s.values.length (members s targetRange).length

/-- The next variables get the sorted values, and the other tag. -/
def addSorted (s : Builder) (targetRange : ℕ) : Builder :=
  { s with
    values := s.values ++ (sortedList s targetRange).map (Nat.cast : ℕ → FF)
    realVariableTags := fun i =>
      if s.values.length ≤ i ∧ i < s.values.length + (members s targetRange).length then
        .tau targetRange
      else
        s.realVariableTags i }

def processRangeLists (s : Builder) : List ℕ → Builder × List SortGate
  | [] => (s, [])
  | targetRange :: rest =>
    let (s', gates) := processRangeLists (addSorted s targetRange) rest
    (s', createSortConstraintWithEdges 0 targetRange (sortedIndices s targetRange) ++ gates)

def finalize (s : Builder) : Builder × List SortGate :=
  processRangeLists s (s.targets.mergeSort (· ≤ ·))

def tagged (s : Builder) (tag : Tag) : List ℕ :=
  (List.range s.values.length).filter fun i =>
    s.realVariableIndex i = i ∧ s.realVariableTags i = tag

def value (s : Builder) (i : ℕ) : FF := s.values.getD i 0

/-- An assignment satisfies the finalised circuit: copies are equal, gates hold for all `alpha`,
and the permutation takes the values of every range to those of its sorted list. -/
structure Accepts (s : Builder) (v : ℕ → FF) : Prop where
  copies : ∀ i, v ((finalize s).1.realVariableIndex i) = v i
  gates : ∀ alpha eta, Satisfied alpha eta v
    ((finalize s).1.gates ++ (finalize s).2.map SortGate.toGate)
  sorts : ∀ alpha, SortSatisfied alpha v (finalize s).2
  permutation : ∀ t, ((tagged (finalize s).1 (.range t)).map v).Perm
    ((tagged (finalize s).1 (.tau t)).map v)

/-! ### One list after the other -/

/-- What the lists need: variables without tags, and classes in lists. -/
structure Ready (s : Builder) : Prop where
  fresh : ∀ i, s.values.length ≤ i → s.realVariableTags i = .dummy
  classes : ∀ t, ∀ x ∈ members s t, s.realVariableIndex x = x ∧ x < s.values.length

def AllSorted (v : ℕ → FF) : Builder → List ℕ → Prop
  | _, [] => True
  | s, t :: rest => Sorted v 0 t (sortedIndices s t) ∧ AllSorted v (addSorted s t) rest

section Process

variable {s : Builder} {v : ℕ → FF}

theorem mem_members {t x : ℕ} :
    x ∈ members s t ↔ ∃ y ∈ s.rangeList t, s.realVariableIndex y = x := by
  rw [members, mem_dedup, mem_map]

theorem Coherent.ready (h : Coherent s) : Ready s where
  fresh i hi := (h.fresh i hi).2
  classes t x hx := by
    obtain ⟨y, hy, rfl⟩ := mem_members.1 hx
    exact ⟨h.idem y, h.lt y (h.memLt t y hy)⟩

theorem length_sortedList (t : ℕ) : (sortedList s t).length = (members s t).length := by
  rw [sortedList, length_mergeSort, length_map]

theorem length_addSorted (t : ℕ) :
    (addSorted s t).values.length = s.values.length + (members s t).length := by
  simp only [addSorted, length_append, length_map, length_sortedList]

theorem length_sortedIndices (t : ℕ) :
    (sortedIndices s t).length % 4 = 0 ∧ sortedIndices s t ≠ [] := by
  have hlength : (sortedIndices s t).length =
      padding (members s t).length + (members s t).length := by
    rw [sortedIndices, length_append, length_replicate, length_range']
  have hpadding : (padding (members s t).length + (members s t).length) % 4 = 0 ∧
      0 < padding (members s t).length + (members s t).length := by
    rw [padding]
    split <;> omega
  refine ⟨hlength ▸ hpadding.1, fun hnil => ?_⟩
  rw [hnil, length_nil] at hlength
  omega

theorem Ready.sorted (h : Ready s) (t : ℕ) : Ready (addSorted s t) where
  fresh i hi := by
    rw [length_addSorted] at hi
    show (if _ then _ else _) = Tag.dummy
    rw [if_neg (by omega)]
    exact h.fresh i (by omega)
  classes t' x hx := by
    obtain ⟨hreal, hlt⟩ := h.classes t' x hx
    exact ⟨hreal, hlt.trans_le (by rw [length_addSorted]; omega)⟩

theorem Ready.sortedList_addSorted (h : Ready s) (t t' : ℕ) :
    sortedList (addSorted s t) t' = sortedList s t' := by
  rw [sortedList, sortedList]
  refine congrArg (fun l : List ℕ => l.mergeSort fun a b => decide (a ≤ b))
    (map_congr_left fun x hx => ?_)
  obtain ⟨hreal, hlt⟩ := h.classes t' x hx
  show ((s.values ++ _).getD (s.realVariableIndex x) 0).val % 2 ^ 32 = _
  rw [Builder.getVariable, hreal, getD_eq_getElem?_getD, List.getElem?_append_left hlt,
    ← getD_eq_getElem?_getD]

theorem satisfied_processRangeLists {targets : List ℕ} : ((∀ alpha eta, Satisfied alpha eta v
        ((processRangeLists s targets).2.map SortGate.toGate)) ∧
      ∀ alpha, SortSatisfied alpha v (processRangeLists s targets).2) ↔ AllSorted v s targets := by
  induction targets generalizing s with
  | nil => exact iff_of_true ⟨fun _ _ => trivial, fun _ => trivial⟩ trivial
  | cons t rest ih =>
    obtain ⟨hlength, hne⟩ := length_sortedIndices (s := s) t
    exact (satisfied_sortConstraint hlength hne).trans (and_congr_right fun _ => ih)

theorem processRangeLists_keeps (targets : List ℕ) :
    (processRangeLists s targets).1.realVariableIndex = s.realVariableIndex ∧
      (processRangeLists s targets).1.gates = s.gates ∧
      (∃ rest, (processRangeLists s targets).1.values = s.values ++ rest) ∧
      ∀ i < s.values.length, (processRangeLists s targets).1.realVariableTags i =
        s.realVariableTags i := by
  induction targets generalizing s with
  | nil => exact ⟨rfl, rfl, ⟨[], (append_nil _).symm⟩, fun _ _ => rfl⟩
  | cons t rest ih =>
    obtain ⟨hreal, hgates, ⟨values, hvalues⟩, htags⟩ := ih (s := addSorted s t)
    refine ⟨hreal, hgates, ⟨_, hvalues.trans (append_assoc _ _ _)⟩, fun i hi => ?_⟩
    refine (htags i (hi.trans_le (by rw [length_addSorted]; omega))).trans ?_
    exact if_neg (by omega)

theorem Ready.tags_processRangeLists (h : Ready s) (targets : List ℕ) {i : ℕ}
    (hi : s.values.length ≤ i) : (processRangeLists s targets).1.realVariableTags i = .dummy ∨
      ∃ t ∈ targets, (processRangeLists s targets).1.realVariableTags i = .tau t := by
  induction targets generalizing s with
  | nil => exact .inl (h.fresh i hi)
  | cons t rest ih =>
    rcases Nat.lt_or_ge i (addSorted s t).values.length with hlt | hge
    · have htag := (processRangeLists_keeps (s := addSorted s t) rest).2.2.2 i hlt
      rw [length_addSorted] at hlt
      exact .inr ⟨t, mem_cons_self, htag.trans (if_pos ⟨hi, hlt⟩)⟩
    · exact (ih (h.sorted t) hge).imp_right fun ⟨t', ht', htag⟩ =>
        ⟨t', mem_cons_of_mem _ ht', htag⟩

theorem map_value_range' (before new after : List FF) : (range' before.length new.length).map
      (fun i => (before ++ new ++ after).getD i 0) = new := by
  refine ext_getElem (by simp) fun i hi hi' => ?_
  rw [getElem_map, getElem_range', one_mul, append_assoc, getD_eq_getElem?_getD,
    List.getElem?_append_right (Nat.le_add_right _ _), Nat.add_sub_cancel_left,
    List.getElem?_append_left hi', List.getElem?_eq_getElem hi', Option.getD_some]

theorem Ready.exists_sorted (h : Ready s) {targets : List ℕ} (hnodup : targets.Nodup)
    (htau : ∀ t ∈ targets, ∀ i < s.values.length, s.realVariableTags i ≠ .tau t) {t : ℕ}
    (ht : t ∈ targets) : ∃ start, s.values.length ≤ start ∧
      start + (members s t).length ≤ (processRangeLists s targets).1.values.length ∧
      (∀ i, (processRangeLists s targets).1.realVariableTags i = .tau t ↔
        start ≤ i ∧ i < start + (members s t).length) ∧
      (range' start (members s t).length).map (value (processRangeLists s targets).1) =
        (sortedList s t).map (Nat.cast : ℕ → FF) ∧ (AllSorted v s targets → Sorted v 0 t
        (replicate (padding (members s t).length) zeroIdx ++
          range' start (members s t).length)) := by
  induction targets generalizing s with
  | nil => exact absurd ht not_mem_nil
  | cons t₀ rest ih =>
    obtain ⟨hnotin, hnodup⟩ := nodup_cons.1 hnodup
    have hlength := length_addSorted (s := s) t₀
    obtain ⟨-, -, ⟨values, hvalues⟩, htags⟩ := processRangeLists_keeps (s := addSorted s t₀) rest
    have hblock : ∀ i < (addSorted s t₀).values.length, (addSorted s t₀).realVariableTags i =
        if s.values.length ≤ i then .tau t₀ else s.realVariableTags i := by
      intro i hi
      rw [hlength] at hi
      show (if _ then _ else _) = _
      rw [if_congr (and_iff_left hi) rfl rfl]
    rcases mem_cons.1 ht with rfl | ht
    · refine ⟨s.values.length, le_rfl, ?_, fun i => ?_, ?_, fun hsorted => hsorted.1⟩
      · show _ ≤ (processRangeLists (addSorted s t) rest).1.values.length
        rw [hvalues, length_append, hlength]
        exact Nat.le_add_right _ _
      · rcases Nat.lt_or_ge i (addSorted s t).values.length with hlt | hge
        · have htag := (htags i hlt).trans (hblock i hlt)
          rw [hlength] at hlt
          refine (Eq.congr_left htag).trans ?_
          by_cases hle : s.values.length ≤ i
          · rw [if_pos hle]
            exact iff_of_true rfl ⟨hle, hlt⟩
          · rw [if_neg hle]
            exact iff_of_false (htau t mem_cons_self i (by omega)) fun h => hle h.1
        · refine iff_of_false (fun htag => ?_) (by omega)
          -- the lists after it have other tags
          rcases (h.sorted t).tags_processRangeLists rest hge with hdummy | ⟨t', ht', htau'⟩
          · exact Tag.noConfusion (hdummy.symm.trans htag)
          · have heq := htau'.symm.trans htag
            rw [Tag.tau.injEq] at heq
            exact hnotin (heq ▸ ht')
      · have hmap := map_value_range' s.values ((sortedList s t).map (Nat.cast : ℕ → FF)) values
        rw [length_map, length_sortedList] at hmap
        refine Eq.trans (map_congr_left fun i _ => ?_) hmap
        exact congrArg (fun l => l.getD i (0 : FF)) hvalues
    · obtain ⟨start, hstart, hend, htag, hvalue, hsorted⟩ := ih (h.sorted t₀) hnodup
        (fun t' ht' i hi => by
          rw [hblock i hi]
          split
          · rw [ne_eq, Tag.tau.injEq]
            exact fun heq => hnotin (heq ▸ ht')
          · exact htau t' (mem_cons_of_mem _ ht') i (by omega)) ht
      exact ⟨start, by omega, hend, htag, hvalue.trans (by rw [h.sortedList_addSorted]),
        fun hall => hsorted hall.2⟩

end Process

/-! ### The finalised circuit -/

section Finalize

variable {s : Builder} {v : ℕ → FF}

theorem mem_tagged {tag : Tag} {i : ℕ} : i ∈ tagged s tag ↔
    i < s.values.length ∧ s.realVariableIndex i = i ∧ s.realVariableTags i = tag := by
  simp [tagged]

theorem nodup_tagged (s : Builder) (tag : Tag) : (tagged s tag).Nodup := nodup_range.filter _

theorem finalize_realVariableIndex : (finalize s).1.realVariableIndex = s.realVariableIndex :=
  (processRangeLists_keeps _).1

theorem finalize_tags {i : ℕ} (hi : i < s.values.length) :
    (finalize s).1.realVariableTags i = s.realVariableTags i :=
  (processRangeLists_keeps _).2.2.2 i hi

theorem length_le_finalize : s.values.length ≤ (finalize s).1.values.length := by
  obtain ⟨-, -, ⟨rest, hrest⟩, -⟩ := processRangeLists_keeps (s := s) (s.targets.mergeSort (· ≤ ·))
  rw [finalize, hrest, length_append]
  exact Nat.le_add_right _ _

theorem Coherent.perm_members (h : Coherent s) (t : ℕ) :
    (tagged (finalize s).1 (.range t)).Perm (members s t) := by
  have hlength := length_le_finalize (s := s)
  have hnodup : (members s t).Nodup := nodup_dedup _
  rw [perm_ext_iff_of_nodup (nodup_tagged _ _) hnodup]
  intro i
  rw [mem_tagged, finalize_realVariableIndex]
  constructor
  · rintro ⟨-, hi, htag⟩
    rcases Nat.lt_or_ge i s.values.length with hlt | hge
    · have htag : s.realVariableTags i = .range t := (finalize_tags hlt).symm.trans htag
      exact mem_members.2 ((h.member i t hi).1 htag)
    · rcases h.ready.tags_processRangeLists _ hge with hdummy | ⟨t', -, htau⟩
      · exact Tag.noConfusion (hdummy.symm.trans htag)
      · exact Tag.noConfusion (htau.symm.trans htag)
  · intro hi
    obtain ⟨hself, hlt⟩ := h.ready.classes t i hi
    exact ⟨hlt.trans_le hlength, hself,
      (finalize_tags hlt).trans ((h.member i t hself).2 (mem_members.1 hi))⟩

theorem Coherent.exists_sorted (h : Coherent s) {t : ℕ} (ht : t ∈ s.targets) :
    ∃ start, start + (members s t).length ≤ (finalize s).1.values.length ∧
      (tagged (finalize s).1 (.tau t)).Perm (range' start (members s t).length) ∧
      (range' start (members s t).length).map (value (finalize s).1) =
        (sortedList s t).map (Nat.cast : ℕ → FF) ∧
      (AllSorted v s (s.targets.mergeSort (· ≤ ·)) → Sorted v 0 t
        (replicate (padding (members s t).length) zeroIdx ++
          range' start (members s t).length)) := by
  obtain ⟨start, hstart, hend, htag, hvalue, hsorted⟩ := h.ready.exists_sorted (v := v)
    ((mergeSort_perm s.targets _).nodup_iff.2 h.nodup) (fun _ _ i _ => h.tau i _)
    ((mergeSort_perm s.targets _).mem_iff.2 ht)
  refine ⟨start, hend, ?_, hvalue, hsorted⟩
  rw [perm_ext_iff_of_nodup (nodup_tagged _ _) (nodup_range')]
  intro i
  rw [mem_tagged, show (finalize s).1.realVariableTags i = .tau t ↔ _ from htag i,
    finalize_realVariableIndex, mem_range'_1]
  constructor
  · exact fun hi => hi.2.2
  · intro hi
    exact ⟨hi.2.trans_le hend, (h.fresh i (by omega)).1, hi⟩

theorem Accepts.val_le (haccepts : Accepts s v) (h : Coherent s) {t x : ℕ} (ht : t ∈ s.targets)
    (hrange : t < 2 ^ 32) (hbits : (finalize s).1.values.length ≤ 2 ^ 32)
    (hx : x ∈ s.rangeList t) : (v x).val ≤ t := by
  have hall : AllSorted v s (s.targets.mergeSort (· ≤ ·)) := satisfied_processRangeLists.1
    ⟨fun alpha eta => (haccepts.gates alpha eta).of_append, haccepts.sorts⟩
  obtain ⟨start, hend, hperm, -, hsorted⟩ := h.exists_sorted (v := v) ht
  have hlength : (replicate (padding (members s t).length) zeroIdx ++
      range' start (members s t).length).length ≤ 2 ^ 34 := by
    rw [length_append, length_replicate, length_range', padding]
    split <;> omega
  have hle := (hsorted hall).val_le hrange hlength
  have hreal : s.realVariableIndex x ∈ members s t := mem_members.2 ⟨x, hx, rfl⟩
  have hmem : v (s.realVariableIndex x) ∈ (tagged (finalize s).1 (.tau t)).map v :=
    (haccepts.permutation t).mem_iff.1 (mem_map_of_mem ((h.perm_members t).mem_iff.2 hreal))
  obtain ⟨i, hi, heq⟩ := mem_map.1 hmem
  have hcopy := haccepts.copies x
  rw [finalize_realVariableIndex] at hcopy
  rw [← hcopy, ← heq]
  exact hle i (mem_append_right _ (hperm.mem_iff.1 hi))

theorem Coherent.sorted (h : Coherent s) (hfull : Full s) {t start : ℕ} (ht : t ∈ s.targets)
    (hrange : t < 2 ^ 32) (hle : ∀ x ∈ s.rangeList t, (value s x).val ≤ t) (hzero : v zeroIdx = 0)
    (hvalue : (range' start (members s t).length).map v =
      (sortedList s t).map (Nat.cast : ℕ → FF)) :
    Sorted v 0 t (replicate (padding (members s t).length) zeroIdx ++
      range' start (members s t).length) := by
  have hmodulus : 2 ^ 253 < Kernel.fieldModulus := by norm_num [Kernel.fieldModulus]
  -- the values of the list are small
  have hmember : ∀ x ∈ s.rangeList t,
      (s.getVariable (s.realVariableIndex x)).val % 2 ^ 32 = (value s x).val := by
    intro x hx
    have hsame : s.getVariable (s.realVariableIndex x) = value s x := by
      rw [h.getVariable]
      exact h.same x
    have := hle x hx
    rw [hsame, Nat.mod_eq_of_lt (by omega)]
  have hmem : ∀ n, n ∈ sortedList s t ↔ ∃ x ∈ s.rangeList t, (value s x).val = n := by
    intro n
    rw [sortedList, (mergeSort_perm _ _).mem_iff, mem_map]
    constructor
    · rintro ⟨i, hi, rfl⟩
      obtain ⟨x, hx, rfl⟩ := mem_members.1 hi
      exact ⟨x, hx, (hmember x hx).symm⟩
    · rintro ⟨x, hx, rfl⟩
      exact ⟨_, mem_members.2 ⟨x, hx, rfl⟩, hmember x hx⟩
  have hlist : ∀ n, n ≤ t → (n : FF) ∈ listValues t → n ∈ sortedList s t := by
    intro n hn hlist
    obtain ⟨x, hx, heq⟩ := hfull t ht n hlist
    refine (hmem n).2 ⟨x, hx, ?_⟩
    rw [value, heq, ZMod.val_natCast_of_lt (by omega)]
  have hvalues : (replicate (padding (members s t).length) zeroIdx ++
      range' start (members s t).length).map v =
        (replicate (padding (members s t).length) 0 ++ sortedList s t).map (Nat.cast : ℕ → FF) := by
    rw [map_append, map_append, hvalue, map_replicate, map_replicate, hzero, Nat.cast_zero]
  refine sorted_of_multiples hvalues ?_ ?_ ?_ ?_
  · rw [pairwise_append]
    refine ⟨pairwise_replicate.2 (.inr le_rfl), ?_, fun a ha b _ => ?_⟩
    · exact (pairwise_mergeSort' (· ≤ ·) _)
    · rw [eq_of_mem_replicate ha]
      exact Nat.zero_le b
  · intro n hn
    rcases mem_append.1 hn with hn | hn
    · rw [eq_of_mem_replicate hn]
      exact Nat.zero_le t
    · obtain ⟨x, hx, rfl⟩ := (hmem n).1 hn
      exact hle x hx
  · intro m hm h3
    refine mem_append_right _ (hlist m hm (mem_append_left _ (mem_map.2 ?_)))
    refine ⟨m / 3, mem_range.2 ?_, ?_⟩
    · rw [stepSize]
      omega
    · rw [stepSize, Nat.div_mul_cancel (Nat.dvd_of_mod_eq_zero h3)]
  · exact mem_append_right _ (hlist t le_rfl (mem_append_right _ (mem_singleton_self _)))

end Finalize

end UltraRange
