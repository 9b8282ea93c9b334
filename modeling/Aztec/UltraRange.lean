/-
**Range constraints of the Ultra circuit builder.**

A range is a tag on a variable.  Every range has a list with the multiples of three up to its end,
which its variables join; the circuit is finalised with sorted lists.  A variable with the tag of a
wider range gets a copy for the narrower one, and a variable with a narrower range needs no other.

Long values are decomposed into limbs, which are summed three at a time.

The flag that a call with a wrong value sets (`failure`) changes nothing else and is left out;
copies of different values, and of different tags, are no calls.
-/

import Aztec.UltraMemory

open List Function

namespace UltraRange

open UltraGates

/-! ### The builder -/

/-- The tags of variables: none, that of a range, and that of its sorted list.  The source numbers
them. -/
inductive Tag where
  | dummy
  | range (targetRange : ℕ)
  | tau (targetRange : ℕ)
deriving DecidableEq

/-- A decomposition: its variable, bits and bits of a limb, and the limbs that were returned. -/
structure Decomposition where
  variableIndex : ℕ
  numBits : ℕ
  targetRangeBitnum : ℕ
  limbs : List ℕ

/-- The values of the variables (`variables`), the representatives of their classes, the tags of
these, the ranges that have a list and the lists, and the gates.  The calls so far are kept in
`ranges` and `decompositions`. -/
structure Builder where
  values : List FF
  realVariableIndex : ℕ → ℕ
  realVariableTags : ℕ → Tag
  targets : List ℕ
  rangeList : ℕ → List ℕ
  gates : List (Gate FF)
  ranges : List (ℕ × ℕ)
  decompositions : List Decomposition

def zeroIdx : ℕ := 0

def Builder.new : Builder :=
  ⟨[0], id, fun _ => .dummy, [], fun _ => [], [fixWitness zeroIdx zeroIdx 0], [], []⟩

namespace Builder

def getVariable (s : Builder) (i : ℕ) : FF := s.values.getD (s.realVariableIndex i) 0

def addVariable (s : Builder) (value : FF) : Builder × ℕ :=
  ({ s with values := s.values ++ [value] }, s.values.length)

def addGate (s : Builder) (g : Gate FF) : Builder := { s with gates := s.gates ++ [g] }

def tagOf (s : Builder) (i : ℕ) : Tag := s.realVariableTags (s.realVariableIndex i)

end Builder

/-- A variable gets the tag of a range (`assign_tag`) and joins its list. -/
def joinRange (s : Builder) (variableIndex targetRange : ℕ) : Builder :=
  { s with
    realVariableTags := Function.update s.realVariableTags (s.realVariableIndex variableIndex)
      (.range targetRange)
    rangeList := Function.update s.rangeList targetRange
      (s.rangeList targetRange ++ [variableIndex]) }

/-- `DEFAULT_PLOOKUP_RANGE_STEP_SIZE`. -/
def stepSize : ℕ := 3

/-- The values of a new list: the multiples of three, and the end. -/
def listValues (targetRange : ℕ) : List FF :=
  (List.range (targetRange / stepSize + 1)).map (fun i => ((i * stepSize : ℕ) : FF)) ++
    [(targetRange : FF)]

def addListValue (targetRange : ℕ) (s : Builder) (value : FF) : Builder :=
  joinRange (s.addVariable value).1 (s.addVariable value).2 targetRange

/-- `create_range_list`; its dummy gates say nothing. -/
def createRangeList (s : Builder) (targetRange : ℕ) : Builder :=
  (listValues targetRange).foldl (addListValue targetRange)
    { s with targets := s.targets ++ [targetRange] }

/-- `create_add_gate` between a variable and its copy. -/
def copyGate (variableIndex copiedWitness : ℕ) : Gate FF :=
  createBigAddGate variableIndex copiedWitness zeroIdx zeroIdx 1 (-1) 0 0 0 false

def copyRange (s : Builder) (variableIndex targetRange : ℕ) : Builder :=
  let value := s.getVariable variableIndex
  joinRange ((s.addVariable value).1.addGate (copyGate variableIndex (s.addVariable value).2))
    (s.addVariable value).2 targetRange

def withList (s : Builder) (targetRange : ℕ) : Builder :=
  if targetRange ∈ s.targets then s else createRangeList s targetRange

def createNewRangeConstraint (s : Builder) (variableIndex targetRange : ℕ) : Builder :=
  let s := withList s targetRange
  match s.tagOf variableIndex with
  | .dummy => joinRange s variableIndex targetRange
  | .range range =>
    -- a narrower range needs no other
    if range ≤ targetRange then s else copyRange s variableIndex targetRange
  | .tau _ => s

/-! ### Decompositions -/

/-- The bits of the limbs: the last one takes what remains. -/
def limbSizes (numBits targetRangeBitnum : ℕ) : List ℕ :=
  List.replicate (numBits / targetRangeBitnum) targetRangeBitnum ++
    if numBits % targetRangeBitnum = 0 then [] else [numBits % targetRangeBitnum]

def sublimbs (value targetRangeBitnum numLimbs : ℕ) : List ℕ :=
  (List.range numLimbs).map fun i => value / (2 ^ targetRangeBitnum) ^ i % 2 ^ targetRangeBitnum

def addLimbs (s : Builder) : List (ℕ × ℕ) → Builder × List ℕ
  | [] => (s, [])
  | (value, size) :: rest =>
    let limb := s.values.length
    let s := createNewRangeConstraint (s.addVariable value).1 limb (2 ^ size - 1)
    let (s, limbs) := addLimbs s rest
    (s, limb :: limbs)

def padLimbs (limbs : List ℕ) : List ℕ :=
  limbs ++ List.replicate ((3 - limbs.length % 3) % 3) zeroIdx

attribute [local instance] two_atLeastTwo in
/-- The gates that take the limbs from an accumulator, three at a time; the accumulator after them
is the next variable, in the fourth wire of the next gate. -/
def limbGates (targetRangeBitnum accumulator shift next : ℕ) : List ℕ → List (Gate FF)
  | a :: b :: c :: rest =>
    createBigAddGate a b c accumulator (2 ^ shift) (2 ^ (shift + targetRangeBitnum))
        (2 ^ (shift + 2 * targetRangeBitnum)) (-1) 0 (!rest.isEmpty) ::
      limbGates targetRangeBitnum next (shift + 3 * targetRangeBitnum) (next + 1) rest
  | _ => []

attribute [local instance] two_atLeastTwo in
def addAccumulators (s : Builder) (targetRangeBitnum shift : ℕ) (accumulator : FF) :
    List ℕ → Builder
  | a :: b :: c :: rest =>
    let accumulator := accumulator - s.getVariable a * 2 ^ shift -
      s.getVariable b * 2 ^ (shift + targetRangeBitnum) -
        s.getVariable c * 2 ^ (shift + 2 * targetRangeBitnum)
    addAccumulators (s.addVariable accumulator).1 targetRangeBitnum
      (shift + 3 * targetRangeBitnum) accumulator rest
  | _ => s

/-- The limbs, the accumulators, of which `next` is the first new one, and the gates. -/
def decomposeIntoDefaultRange (s : Builder) (variableIndex numBits targetRangeBitnum : ℕ) :
    Builder :=
  let value := s.getVariable variableIndex
  let sizes := limbSizes numBits targetRangeBitnum
  let (s, limbs) := addLimbs s ((sublimbs value.val targetRangeBitnum sizes.length).zip sizes)
  let next := s.values.length
  let s := addAccumulators s targetRangeBitnum 0 value (padLimbs limbs)
  { s with
    gates := s.gates ++ limbGates targetRangeBitnum variableIndex 0 next (padLimbs limbs)
    decompositions := s.decompositions ++ [⟨variableIndex, numBits, targetRangeBitnum, limbs⟩] }

/-! ### Copies -/

/-- Two variables with one value become one, unless they have different tags. -/
def assertEqual (s : Builder) (a b : ℕ) : Option Builder :=
  let aReal := s.realVariableIndex a
  let bReal := s.realVariableIndex b
  if s.getVariable a = s.getVariable b ∧ (s.realVariableTags aReal = .dummy ∨
      s.realVariableTags bReal = .dummy ∨ s.realVariableTags aReal = s.realVariableTags bReal) then
    if aReal = bReal then
      some s
    else
      some { s with
        realVariableIndex := fun i =>
          if s.realVariableIndex i = bReal then aReal else s.realVariableIndex i
        realVariableTags := if s.realVariableTags aReal = .dummy then
            Function.update s.realVariableTags aReal (s.realVariableTags bReal)
          else
            s.realVariableTags }
  else
    none

/-! ### Calls -/

inductive Call where
  | addVariable (value : FF)
  | assertEqual (a b : ℕ)
  | createNewRangeConstraint (variableIndex targetRange : ℕ)
  | decomposeIntoDefaultRange (variableIndex numBits targetRangeBitnum : ℕ)

/-- A call on variables of the circuit, with the arguments that the functions take. -/
def step (s : Builder) : Call → Option Builder
  | .addVariable value => some (s.addVariable value).1
  | .assertEqual a b =>
    if a < s.values.length ∧ b < s.values.length then assertEqual s a b else none
  | .createNewRangeConstraint variableIndex targetRange =>
    if variableIndex < s.values.length ∧ targetRange < 2 ^ 32 then
      let s := createNewRangeConstraint s variableIndex targetRange
      some { s with ranges := s.ranges ++ [(variableIndex, targetRange)] }
    else
      none
  | .decomposeIntoDefaultRange variableIndex numBits targetRangeBitnum =>
    if variableIndex < s.values.length ∧ 0 < numBits ∧ numBits ≤ 253 ∧ 1 ≤ targetRangeBitnum ∧
        targetRangeBitnum ≤ 14 then
      some (decomposeIntoDefaultRange s variableIndex numBits targetRangeBitnum)
    else
      none

def run (calls : List Call) : Option Builder := calls.foldlM step .new

/-! ### Invariants of variables, tags and lists -/

/-- The classes have representatives, a representative has the tag of a range when it is in the
list, and new variables are alone and have no tag. -/
structure Coherent (s : Builder) : Prop where
  idem : ∀ i, s.realVariableIndex (s.realVariableIndex i) = s.realVariableIndex i
  fresh : ∀ i, s.values.length ≤ i → s.realVariableIndex i = i ∧ s.realVariableTags i = .dummy
  lt : ∀ i < s.values.length, s.realVariableIndex i < s.values.length
  pos : 0 < s.values.length
  zero : s.values.getD 0 0 = 0
  zeroGate : fixWitness zeroIdx zeroIdx 0 ∈ s.gates
  tau : ∀ i t, s.realVariableTags i ≠ .tau t
  member : ∀ i t, s.realVariableIndex i = i →
    (s.realVariableTags i = .range t ↔ ∃ x ∈ s.rangeList t, s.realVariableIndex x = i)
  memLt : ∀ t, ∀ x ∈ s.rangeList t, x < s.values.length
  target : ∀ t ∉ s.targets, s.rangeList t = []
  nodup : s.targets.Nodup
  same : ∀ i, s.values.getD (s.realVariableIndex i) 0 = s.values.getD i 0

structure Grows (s s' : Builder) : Prop where
  values : ∃ rest, s'.values = s.values ++ rest
  tags : ∀ i t, s.tagOf i = .range t → s'.tagOf i = .range t
  gates : ∃ rest, s'.gates = s.gates ++ rest

section Coherent

variable {s s' s'' : Builder}

theorem Grows.refl (s : Builder) : Grows s s := ⟨⟨[], by simp⟩, fun _ _ h => h, ⟨[], by simp⟩⟩

theorem Grows.trans (h : Grows s s') (h' : Grows s' s'') : Grows s s'' := by
  obtain ⟨values, hvalues⟩ := h.values
  obtain ⟨values', hvalues'⟩ := h'.values
  obtain ⟨gates, hgates⟩ := h.gates
  obtain ⟨gates', hgates'⟩ := h'.gates
  exact ⟨⟨values ++ values', by rw [hvalues', hvalues, append_assoc]⟩,
    fun i t ht => h'.tags i t (h.tags i t ht),
    ⟨gates ++ gates', by rw [hgates', hgates, append_assoc]⟩⟩

theorem Grows.length_le (h : Grows s s') : s.values.length ≤ s'.values.length := by
  obtain ⟨rest, hrest⟩ := h.values
  rw [hrest, length_append]
  exact Nat.le_add_right _ _

theorem Grows.getD (h : Grows s s') {i : ℕ} (hi : i < s.values.length) :
    s'.values.getD i 0 = s.values.getD i 0 := by
  obtain ⟨rest, hrest⟩ := h.values
  rw [hrest, getD_eq_getElem?_getD, List.getElem?_append_left hi, ← getD_eq_getElem?_getD]

theorem Coherent.getVariable (h : Coherent s) (i : ℕ) : s.getVariable i = s.values.getD i 0 :=
  h.same i

theorem coherent_new : Coherent .new where
  idem _ := rfl
  fresh _ _ := ⟨rfl, rfl⟩
  lt i hi := hi
  pos := Nat.one_pos
  zero := rfl
  zeroGate := mem_singleton_self _
  tau _ _ := Tag.noConfusion
  member i t _ := by simp [Builder.new]
  memLt _ _ hx := absurd hx not_mem_nil
  target _ _ := rfl
  nodup := nodup_nil
  same _ := rfl

theorem Coherent.addVariable (h : Coherent s) (value : FF) :
    Coherent (s.addVariable value).1 ∧ Grows s (s.addVariable value).1 ∧
      (s.addVariable value).1.values.length = s.values.length + 1 ∧
        (s.addVariable value).1.tagOf s.values.length = .dummy ∧
          (s.addVariable value).1.values.getD s.values.length 0 = value := by
  have hlength : (s.addVariable value).1.values.length = s.values.length + 1 := by
    simp [Builder.addVariable]
  have hgrows : Grows s (s.addVariable value).1 :=
    ⟨⟨[value], rfl⟩, fun _ _ ht => ht, ⟨[], (append_nil _).symm⟩⟩
  have hlast : (s.addVariable value).1.values.getD s.values.length 0 = value := by
    simp [Builder.addVariable]
  obtain ⟨hreal, htag⟩ := h.fresh s.values.length le_rfl
  refine ⟨?_, hgrows, hlength, ?_, hlast⟩
  · refine
      { idem := h.idem
        fresh := fun i hi => h.fresh i (by omega)
        lt := fun i hi => ?_
        pos := by omega
        zero := (hgrows.getD h.pos).trans h.zero
        zeroGate := h.zeroGate
        tau := h.tau
        member := h.member
        memLt := fun t x hx => (h.memLt t x hx).trans_le hgrows.length_le
        target := h.target
        nodup := h.nodup
        same := fun i => ?_ }
    · rcases Nat.lt_succ_iff_lt_or_eq.1 (hlength ▸ hi) with hi | rfl
      · exact (h.lt i hi).trans_le hgrows.length_le
      · exact hreal.trans_lt (by omega)
    · rcases Nat.lt_or_ge i s.values.length with hi | hi
      · rw [hgrows.getD hi]
        exact (hgrows.getD (h.lt i hi)).trans (h.same i)
      · exact congrArg (fun j => (s.addVariable value).1.values.getD j 0) (h.fresh i hi).1
  · show s.realVariableTags (s.realVariableIndex s.values.length) = .dummy
    rw [hreal, htag]

theorem Coherent.addGate (h : Coherent s) (g : Gate FF) :
    Coherent (s.addGate g) ∧ Grows s (s.addGate g) :=
  ⟨{ h with zeroGate := mem_append_left _ h.zeroGate },
    ⟨⟨[], (append_nil _).symm⟩, fun _ _ ht => ht, ⟨[g], rfl⟩⟩⟩

theorem Coherent.joinRange (h : Coherent s) {x t : ℕ} (hx : x < s.values.length)
    (htag : s.tagOf x = .dummy) (ht : t ∈ s.targets) :
    Coherent (joinRange s x t) ∧ Grows s (joinRange s x t) ∧
      (joinRange s x t).tagOf x = .range t := by
  have hself : (UltraRange.joinRange s x t).tagOf x = .range t := update_self _ _ _
  have hgrows : Grows s (UltraRange.joinRange s x t) := by
    refine ⟨⟨[], (append_nil _).symm⟩, fun i t' hi => ?_, ⟨[], (append_nil _).symm⟩⟩
    have hne : s.realVariableIndex i ≠ s.realVariableIndex x := fun heq => by
      have hdummy : s.tagOf i = .dummy := (congrArg s.realVariableTags heq).trans htag
      rw [hi] at hdummy
      cases hdummy
    exact (update_of_ne hne _ _).trans hi
  refine ⟨?_, hgrows, hself⟩
  refine
    { idem := h.idem
      fresh := fun i hi => ⟨(h.fresh i hi).1, ?_⟩
      lt := h.lt
      pos := h.pos
      zero := h.zero
      zeroGate := h.zeroGate
      tau := fun i t' => ?_
      member := fun i t' hi => ?_
      memLt := fun t' y hy => ?_
      target := fun t' ht' => ?_
      nodup := h.nodup
      same := h.same }
  · have hi' : s.values.length ≤ i := hi
    have hne : i ≠ s.realVariableIndex x := fun heq => by
      have := h.lt x hx
      omega
    exact (update_of_ne hne _ _).trans (h.fresh i hi).2
  · show update _ _ _ i ≠ _
    rw [update_apply]
    split
    · exact Tag.noConfusion
    · exact h.tau i t'
  · have hmember := h.member i t' hi
    show update s.realVariableTags _ _ i = .range t' ↔
      ∃ y ∈ update s.rangeList t _ t', s.realVariableIndex y = i
    rw [update_apply, update_apply]
    by_cases hxi : i = s.realVariableIndex x
    · rw [if_pos hxi, Tag.range.injEq]
      have hdummy : s.realVariableTags i = .dummy := hxi ▸ htag
      constructor
      · rintro rfl
        rw [if_pos rfl]
        exact ⟨x, by simp, hxi.symm⟩
      · rintro ⟨y, hy, hyi⟩
        by_contra hne
        rw [if_neg (Ne.symm hne)] at hy
        have := hmember.2 ⟨y, hy, hyi⟩
        rw [hdummy] at this
        cases this
    · rw [if_neg hxi, hmember]
      by_cases htt : t' = t
      · subst htt
        rw [if_pos rfl]
        constructor
        · rintro ⟨y, hy, hyi⟩
          exact ⟨y, mem_append_left _ hy, hyi⟩
        · rintro ⟨y, hy, hyi⟩
          rcases mem_append.1 hy with hy | hy
          · exact ⟨y, hy, hyi⟩
          · rw [mem_singleton.1 hy] at hyi
            exact absurd hyi.symm hxi
      · rw [if_neg htt]
  · have hy' : y ∈ s.rangeList t' ∨ y = x := by
      have hy : y ∈ update s.rangeList t (s.rangeList t ++ [x]) t' := hy
      rw [update_apply] at hy
      split at hy
      · next heq =>
        subst heq
        simpa using hy
      · exact .inl hy
    rcases hy' with hy' | rfl
    · exact h.memLt t' y hy'
    · exact hx
  · have hne : t' ≠ t := fun heq => ht' (heq ▸ ht)
    exact (update_of_ne hne _ _).trans (h.target t' ht')

end Coherent

/-! ### Range constraints -/

/-- The variable, or a copy of it, has the tag of a range that is not wider. -/
def Constrained (s : Builder) (x t : ℕ) : Prop :=
  ∃ y r, y < s.values.length ∧ s.tagOf y = .range r ∧ r ≤ t ∧ (x = y ∨ copyGate x y ∈ s.gates)

def Full (s : Builder) : Prop :=
  ∀ t ∈ s.targets, ∀ value ∈ listValues t, ∃ y ∈ s.rangeList t, s.values.getD y 0 = value

def IsCopy (s : Builder) (g : Gate FF) : Prop :=
  ∃ x y, g = copyGate x y ∧ x < s.values.length ∧ y < s.values.length ∧
    s.values.getD x 0 = s.values.getD y 0

/-- What a range constraint does: the variables that join a list have values that `Q` allows, and
the new gates are copies. -/
structure Joins (Q : ℕ → FF → Prop) (s s' : Builder) : Prop where
  coherent : Coherent s'
  grows : Grows s s'
  lists : ∀ t, ∀ y ∈ s'.rangeList t, y ∈ s.rangeList t ∨ Q t (s'.values.getD y 0)
  gates : ∃ new, s'.gates = s.gates ++ new ∧ ∀ g ∈ new, IsCopy s' g
  ranges : s'.ranges = s.ranges
  decompositions : s'.decompositions = s.decompositions

section Joins

variable {Q : ℕ → FF → Prop} {s s' s'' : Builder} {x t : ℕ}

theorem Constrained.grows (h : Constrained s x t) (hgrows : Grows s s') : Constrained s' x t := by
  obtain ⟨y, r, hy, htag, hr, hxy⟩ := h
  obtain ⟨rest, hrest⟩ := hgrows.gates
  refine ⟨y, r, hy.trans_le hgrows.length_le, hgrows.tags y r htag, hr, hxy.imp_right fun hg => ?_⟩
  rw [hrest]
  exact mem_append_left _ hg

theorem IsCopy.grows {g : Gate FF} (h : IsCopy s g) (hgrows : Grows s s') : IsCopy s' g := by
  obtain ⟨x, y, rfl, hx, hy, heq⟩ := h
  exact ⟨x, y, rfl, hx.trans_le hgrows.length_le, hy.trans_le hgrows.length_le,
    (hgrows.getD hx).trans (heq.trans (hgrows.getD hy).symm)⟩

theorem Joins.trans (h : Joins Q s s') (h' : Joins Q s' s'') : Joins Q s s'' where
  coherent := h'.coherent
  grows := h.grows.trans h'.grows
  lists t y hy := by
    rcases h'.lists t y hy with hy' | hQ
    · have hlt := h.coherent.memLt t y hy'
      rw [h'.grows.getD hlt]
      exact h.lists t y hy'
    · exact .inr hQ
  gates := by
    obtain ⟨new, hnew, hcopy⟩ := h.gates
    obtain ⟨new', hnew', hcopy'⟩ := h'.gates
    refine ⟨new ++ new', by rw [hnew', hnew, append_assoc], fun g hg => ?_⟩
    exact (mem_append.1 hg).elim (fun hg => (hcopy g hg).grows h'.grows) (hcopy' g)
  ranges := h'.ranges.trans h.ranges
  decompositions := h'.decompositions.trans h.decompositions

theorem Joins.refl (h : Coherent s) : Joins Q s s :=
  ⟨h, .refl s, fun _ _ hy => .inl hy, ⟨[], by simp, fun _ hg => absurd hg not_mem_nil⟩, rfl,
    rfl⟩

theorem mem_joinRange {t' y : ℕ} (hy : y ∈ (joinRange s x t).rangeList t') :
    y ∈ s.rangeList t' ∨ t' = t ∧ y = x := by
  have hy : y ∈ update s.rangeList t (s.rangeList t ++ [x]) t' := hy
  rw [update_apply] at hy
  split at hy
  · next heq =>
    subst heq
    exact (mem_append.1 hy).imp_right fun hy => ⟨rfl, mem_singleton.1 hy⟩
  · exact .inl hy

theorem mem_joinRange_of_mem {t' y : ℕ} (hy : y ∈ s.rangeList t') :
    y ∈ (joinRange s x t).rangeList t' := by
  show y ∈ update s.rangeList t (s.rangeList t ++ [x]) t'
  rw [update_apply]
  split
  · next heq => exact mem_append_left _ (heq ▸ hy)
  · exact hy

theorem self_mem_joinRange : x ∈ (joinRange s x t).rangeList t := by
  show x ∈ update s.rangeList t (s.rangeList t ++ [x]) t
  rw [update_self]
  simp

section

variable (h : Coherent s)
include h

theorem Coherent.joins_joinRange (hx : x < s.values.length) (htag : s.tagOf x = .dummy)
    (ht : t ∈ s.targets) (hQ : Q t (s.values.getD x 0)) :
    Joins Q s (UltraRange.joinRange s x t) ∧ Constrained (UltraRange.joinRange s x t) x t := by
  obtain ⟨hcoherent, hgrows, hself⟩ := h.joinRange hx htag ht
  refine ⟨⟨hcoherent, hgrows, fun t' y hy => ?_, ⟨[], by simp [UltraRange.joinRange], fun _ hg =>
    absurd hg not_mem_nil⟩, rfl, rfl⟩, x, t, hx, hself, le_rfl, .inl rfl⟩
  rcases mem_joinRange hy with hy | ⟨rfl, rfl⟩
  · exact .inl hy
  · exact .inr hQ

theorem Coherent.joins_addVariable (value : FF) : Joins Q s (s.addVariable value).1 := by
  obtain ⟨hcoherent, hgrows, -⟩ := h.addVariable value
  exact ⟨hcoherent, hgrows, fun _ _ hy => .inl hy, ⟨[], by simp [Builder.addVariable], fun _ hg =>
    absurd hg not_mem_nil⟩, rfl, rfl⟩

theorem Coherent.joins_addListValue {value : FF} (ht : t ∈ s.targets) (hQ : Q t value) :
    Joins Q s (addListValue t s value) ∧ ∃ y ∈ (addListValue t s value).rangeList t,
        (addListValue t s value).values.getD y 0 = value := by
  obtain ⟨hcoherent, -, hlength, htag, hvalue⟩ := h.addVariable value
  have hjoin := (hcoherent.joins_joinRange (Q := Q) (x := s.values.length) (by omega) htag ht
    (hvalue.symm ▸ hQ)).1
  exact ⟨(h.joins_addVariable value).trans hjoin, s.values.length, self_mem_joinRange, hvalue⟩

theorem Coherent.joins_listValues (ht : t ∈ s.targets) {values : List FF}
    (hQ : ∀ value ∈ values, Q t value) : Joins Q s (values.foldl (addListValue t) s) ∧
      (∀ t' y, y ∈ s.rangeList t' → y ∈ (values.foldl (addListValue t) s).rangeList t') ∧
      (values.foldl (addListValue t) s).targets = s.targets ∧
      ∀ value ∈ values, ∃ y ∈ (values.foldl (addListValue t) s).rangeList t,
        (values.foldl (addListValue t) s).values.getD y 0 = value := by
  induction values generalizing s with
  | nil => exact ⟨.refl h, fun _ _ hy => hy, rfl, fun _ hv => absurd hv not_mem_nil⟩
  | cons value values ih =>
    obtain ⟨hjoins, y, hy, hvalue⟩ := h.joins_addListValue ht (hQ value mem_cons_self)
    obtain ⟨hrest, hkept, htargets, hvalues⟩ := ih hjoins.coherent (s := addListValue t s value) ht
      fun v hv => hQ v (mem_cons_of_mem _ hv)
    refine ⟨hjoins.trans hrest, fun t' y hy => hkept t' y (mem_joinRange_of_mem hy), htargets,
      fun v hv => ?_⟩
    rcases mem_cons.1 hv with rfl | hv
    · exact ⟨y, hkept t y hy, (hrest.grows.getD (hjoins.coherent.memLt t y hy)).trans hvalue⟩
    · exact hvalues v hv

theorem Coherent.joins_withList (hQ : ∀ value ∈ listValues t, Q t value) (hfull : Full s) :
    Joins Q s (withList s t) ∧ Full (withList s t) ∧ t ∈ (withList s t).targets := by
  rw [withList]
  split
  · next ht => exact ⟨.refl h, hfull, ht⟩
  · next ht =>
    have htarget : Coherent { s with targets := s.targets ++ [t] } :=
      { h with
        target := fun t' ht' => h.target t' fun hmem => ht' (mem_append_left _ hmem)
        nodup := by
          rw [nodup_append]
          refine ⟨h.nodup, nodup_singleton t, fun a ha b hb => ?_⟩
          rw [mem_singleton.1 hb]
          exact fun heq => ht (heq ▸ ha) }
    have hjoins : Joins Q s { s with targets := s.targets ++ [t] } :=
      ⟨htarget, ⟨⟨[], by simp⟩, fun _ _ htag => htag, ⟨[], by simp⟩⟩, fun _ _ hy => .inl hy,
        ⟨[], by simp, fun _ hg => absurd hg not_mem_nil⟩, rfl, rfl⟩
    obtain ⟨hrest, hkept, htargets, hvalues⟩ := htarget.joins_listValues
      (mem_append_right _ (mem_singleton_self t)) hQ
    rw [createRangeList]
    refine ⟨hjoins.trans hrest, fun t' ht' value hvalue => ?_, ?_⟩
    · rw [htargets] at ht'
      rcases mem_append.1 ht' with ht' | ht'
      · obtain ⟨y, hy, heq⟩ := hfull t' ht' value hvalue
        exact ⟨y, hkept t' y hy, (hrest.grows.getD (h.memLt t' y hy)).trans heq⟩
      · rw [mem_singleton.1 ht'] at hvalue ⊢
        exact hvalues value hvalue
    · rw [htargets]
      exact mem_append_right _ (mem_singleton_self t)

end

theorem Full.joinRange (h : Full s) : Full (joinRange s x t) := by
  intro t' ht' value hvalue
  obtain ⟨y, hy, heq⟩ := h t' ht' value hvalue
  exact ⟨y, mem_joinRange_of_mem hy, heq⟩

theorem Full.grows (h : Full s) (hcoherent : Coherent s) (hgrows : Grows s s')
    (htargets : s'.targets = s.targets) (hlists : s'.rangeList = s.rangeList) : Full s' := by
  intro t ht value hvalue
  obtain ⟨y, hy, heq⟩ := h t (htargets ▸ ht) value hvalue
  exact ⟨y, hlists ▸ hy, (hgrows.getD (hcoherent.memLt t y hy)).trans heq⟩

theorem Coherent.createNewRangeConstraint (h : Coherent s) (hfull : Full s)
    (hx : x < s.values.length) (hQ : ∀ value ∈ listValues t, Q t value)
    (hQx : Q t (s.values.getD x 0)) :
    Joins Q s (createNewRangeConstraint s x t) ∧ Full (createNewRangeConstraint s x t) ∧
      Constrained (createNewRangeConstraint s x t) x t := by
  obtain ⟨hlist, hfull', ht⟩ := h.joins_withList hQ hfull
  have hx' : x < (withList s t).values.length := hx.trans_le hlist.grows.length_le
  have hvalue : (withList s t).values.getD x 0 = s.values.getD x 0 := hlist.grows.getD hx
  simp only [UltraRange.createNewRangeConstraint]
  split
  · next htag =>
    obtain ⟨hjoins, hconstrained⟩ := hlist.coherent.joins_joinRange hx' htag ht (hvalue.symm ▸ hQx)
    exact ⟨hlist.trans hjoins, hfull'.joinRange, hconstrained⟩
  · next r htag =>
    split
    · next hr => exact ⟨hlist, hfull', x, r, hx', htag, hr, .inl rfl⟩
    · -- the copy has no tag
      obtain ⟨hcoherent, hgrows, hlength, hdummy, hcopy⟩ :=
        hlist.coherent.addVariable ((withList s t).getVariable x)
      obtain ⟨hcoherent', hgrows'⟩ := hcoherent.addGate
        (copyGate x (withList s t).values.length)
      have hcopied := hcopy.trans (hlist.coherent.getVariable x)
      have hlt : (withList s t).values.length < (((withList s t).addVariable
          ((withList s t).getVariable x)).1.addGate
            (copyGate x (withList s t).values.length)).values.length := by
        show _ < ((withList s t).addVariable ((withList s t).getVariable x)).1.values.length
        omega
      have hjoins : Joins Q (withList s t) (((withList s t).addVariable
          ((withList s t).getVariable x)).1.addGate
            (copyGate x (withList s t).values.length)) := by
        refine ⟨hcoherent', hgrows.trans hgrows', fun _ _ hy => .inl hy, ⟨[_], rfl, fun g hg => ?_⟩,
          rfl, rfl⟩
        refine ⟨x, (withList s t).values.length, mem_singleton.1 hg, hx'.trans hlt, hlt, ?_⟩
        exact (hgrows.getD hx').trans hcopied.symm
      obtain ⟨hjoin, y, r', hy, htag', hr', hxy⟩ := hcoherent'.joins_joinRange (Q := Q)
        (x := (withList s t).values.length) hlt hdummy ht (by
          show Q t (((withList s t).addVariable ((withList s t).getVariable x)).1.values.getD _ 0)
          rw [hcopied, hvalue]
          exact hQx)
      refine ⟨hlist.trans (hjoins.trans hjoin), ?_, ?_⟩
      · exact (hfull'.grows hlist.coherent (hgrows.trans hgrows') rfl rfl).joinRange
      · refine ⟨(withList s t).values.length, t, hlt, ?_, le_rfl, .inr ?_⟩
        · exact (hcoherent'.joinRange hlt hdummy ht).2.2
        · exact mem_append_right _ (mem_singleton_self _)
  · next htag => exact absurd htag (hlist.coherent.tau _ _)

/-- A limb has the value that it was given, and the range of its bits. -/
def IsLimb (s : Builder) (limb : ℕ) (p : ℕ × ℕ) : Prop :=
  limb < s.values.length ∧ Constrained s limb (2 ^ p.2 - 1) ∧ s.values.getD limb 0 = p.1

theorem IsLimb.grows {limb : ℕ} {p : ℕ × ℕ} (h : IsLimb s limb p) (hgrows : Grows s s') :
    IsLimb s' limb p :=
  ⟨h.1.trans_le hgrows.length_le, h.2.1.grows hgrows, (hgrows.getD h.1).trans h.2.2⟩

theorem Coherent.addLimbs (h : Coherent s) (hfull : Full s) {pairs : List (ℕ × ℕ)}
    (hQ : ∀ p ∈ pairs, (∀ value ∈ listValues (2 ^ p.2 - 1), Q (2 ^ p.2 - 1) value) ∧
      Q (2 ^ p.2 - 1) p.1) : Joins Q s (addLimbs s pairs).1 ∧ Full (addLimbs s pairs).1 ∧
      List.Forall₂ (IsLimb (addLimbs s pairs).1) (addLimbs s pairs).2 pairs := by
  induction pairs generalizing s with
  | nil => exact ⟨.refl h, hfull, .nil⟩
  | cons p pairs ih =>
    obtain ⟨value, size⟩ := p
    obtain ⟨hcoherent, hgrows, hlength, -, hvalue⟩ := h.addVariable value
    have hlt : s.values.length < (s.addVariable (value : FF)).1.values.length := by omega
    obtain ⟨hlist, hlimb⟩ := hQ (value, size) mem_cons_self
    obtain ⟨hjoins, hfull', hconstrained⟩ := hcoherent.createNewRangeConstraint
      (hfull.grows h hgrows rfl rfl) hlt hlist (hvalue.symm ▸ hlimb)
    obtain ⟨hrest, hfullRest, hlimbs⟩ := ih hjoins.coherent hfull'
      fun p hp => hQ p (mem_cons_of_mem _ hp)
    refine ⟨((h.joins_addVariable _).trans hjoins).trans hrest, hfullRest, .cons ?_ hlimbs⟩
    have hlimb : IsLimb (UltraRange.createNewRangeConstraint (s.addVariable (value : FF)).1
        s.values.length (2 ^ size - 1)) s.values.length (value, size) :=
      ⟨hlt.trans_le hjoins.grows.length_le, hconstrained, (hjoins.grows.getD hlt).trans hvalue⟩
    exact hlimb.grows hrest.grows

theorem joins_addAccumulators (Q : ℕ → FF → Prop) (k : ℕ) : ∀ (limbs : List ℕ) {s : Builder}
    (shift : ℕ) (accumulator : FF), Coherent s → Full s →
      Joins Q s (addAccumulators s k shift accumulator limbs) ∧
        Full (addAccumulators s k shift accumulator limbs)
  | [], _, _, _, h, hfull => ⟨.refl h, hfull⟩
  | [_], _, _, _, h, hfull => ⟨.refl h, hfull⟩
  | [_, _], _, _, _, h, hfull => ⟨.refl h, hfull⟩
  | a :: b :: c :: rest, s, shift, accumulator, h, hfull => by
    have hjoins := h.joins_addVariable (Q := Q) (accumulator - s.getVariable a * 2 ^ shift -
      s.getVariable b * 2 ^ (shift + k) - s.getVariable c * 2 ^ (shift + 2 * k))
    obtain ⟨hrest, hfullRest⟩ := joins_addAccumulators Q k rest (shift + 3 * k)
      (accumulator - s.getVariable a * 2 ^ shift - s.getVariable b * 2 ^ (shift + k) -
          s.getVariable c * 2 ^ (shift + 2 * k)) hjoins.coherent
      (hfull.grows h hjoins.grows rfl rfl)
    exact ⟨hjoins.trans hrest, hfullRest⟩

end Joins

/-! ### Sums of limbs -/

section Limbs

variable {v : ℕ → FF} {alpha eta : FF}

attribute [local instance] two_atLeastTwo in
def limbSum (v : ℕ → FF) (k shift : ℕ) : List ℕ → FF
  | [] => 0
  | limb :: limbs => v limb * 2 ^ shift + limbSum v k (shift + k) limbs

attribute [local instance] two_atLeastTwo in
def LimbsAdd (v : ℕ → FF) (k accumulator shift next : ℕ) : List ℕ → Prop
  | a :: b :: c :: rest =>
    v a * 2 ^ shift + v b * 2 ^ (shift + k) + v c * 2 ^ (shift + 2 * k) +
        (if rest.isEmpty then 0 else v next) = v accumulator ∧
      LimbsAdd v k next (shift + 3 * k) (next + 1) rest
  | _ => True

variable {k : ℕ}

theorem satisfied_limbGates {post : List (Gate FF)} :
    ∀ {limbs : List ℕ} {accumulator shift next : ℕ}, limbs.length % 3 = 0 →
      (Satisfied alpha eta v (limbGates k accumulator shift next limbs ++ post) ↔
        LimbsAdd v k accumulator shift next limbs ∧ Satisfied alpha eta v post)
  | [], _, _, _, _ => by simp [limbGates, LimbsAdd]
  | [_], _, _, _, h => by simp at h
  | [_, _], _, _, _, h => by simp at h
  | a :: b :: c :: rest, accumulator, shift, next, h => by
    have hrest : rest.length % 3 = 0 := by
      simp only [length_cons] at h
      omega
    rw [limbGates, LimbsAdd, cons_append, Satisfied, satisfied_limbGates hrest, and_assoc]
    refine and_congr_left fun _ => ?_
    cases hempty : rest.isEmpty with
    | true =>
      rw [Bool.not_true, holds_bigAdd]
      simp only [wiresOf, createBigAddGate, if_true]
      constructor
      · intro hsum
        linear_combination hsum
      · intro hsum
        linear_combination hsum
    | false =>
      have hnext : (nextWires v (limbGates k next (shift + 3 * k) (next + 1) rest ++ post)).w_4 =
          v next := by
        rcases rest with _ | ⟨_, _ | ⟨_, _ | ⟨_, _⟩⟩⟩
        · simp at hempty
        · simp at hrest
        · simp at hrest
        · rfl
      rw [Bool.not_false, holds_bigAddNext UltraMemory.char_ne_two, hnext]
      simp only [wiresOf, createBigAddGate, Bool.false_eq_true, if_false]
      constructor
      · intro hsum
        linear_combination hsum
      · intro hsum
        linear_combination hsum

theorem LimbsAdd.sum : ∀ {limbs : List ℕ} {accumulator shift next : ℕ},
    limbs.length % 3 = 0 → limbs ≠ [] → LimbsAdd v k accumulator shift next limbs →
      v accumulator = limbSum v k shift limbs
  | [], _, _, _, _, hne, _ => absurd rfl hne
  | [_], _, _, _, h, _, _ => by simp at h
  | [_, _], _, _, _, h, _, _ => by simp at h
  | a :: b :: c :: rest, accumulator, shift, next, h, _, hadd => by
    have hrest : rest.length % 3 = 0 := by
      simp only [length_cons] at h
      omega
    obtain ⟨hhead, htail⟩ := hadd
    simp only [limbSum]
    have hshift : shift + k + k = shift + 2 * k ∧ shift + 2 * k + k = shift + 3 * k := by omega
    rw [hshift.1, hshift.2]
    cases hempty : rest.isEmpty with
    | true =>
      obtain rfl := List.isEmpty_iff.1 hempty
      rw [hempty, if_pos rfl] at hhead
      rw [← hhead, limbSum]
      ring
    | false =>
      rw [hempty, if_neg Bool.false_ne_true] at hhead
      have hne : rest ≠ [] := fun heq => by simp [heq] at hempty
      rw [← hhead, LimbsAdd.sum hrest hne htail]
      ring

theorem limbSum_congr {v' : ℕ → FF} {limbs : List ℕ} {shift : ℕ} (h : ∀ x ∈ limbs, v x = v' x) :
    limbSum v k shift limbs = limbSum v' k shift limbs := by
  induction limbs generalizing shift with
  | nil => rfl
  | cons limb limbs ih =>
    rw [limbSum, limbSum, h limb mem_cons_self, ih fun x hx => h x (mem_cons_of_mem _ hx)]

theorem limbsAdd_addAccumulators : ∀ {limbs : List ℕ} {s s' : Builder} {shift acc : ℕ}
    {accumulator : FF}, Coherent s → Full s → limbs.length % 3 = 0 →
      (∀ x ∈ limbs, x < s.values.length) → acc < s.values.length →
        s.values.getD acc 0 = accumulator →
          accumulator = limbSum (fun i => s.values.getD i 0) k shift limbs →
            Grows (addAccumulators s k shift accumulator limbs) s' →
              LimbsAdd (fun i => s'.values.getD i 0) k acc shift s.values.length limbs
  | [], _, _, _, _, _, _, _, _, _, _, _, _, _ => trivial
  | [_], _, _, _, _, _, _, _, h, _, _, _, _, _ => by simp at h
  | [_, _], _, _, _, _, _, _, _, h, _, _, _, _, _ => by simp at h
  | a :: b :: c :: rest, s, s', shift, acc, accumulator, hcoherent, hfull, h, hlt, hacc, hvalue,
      hsum, hgrows => by
    have hrest : rest.length % 3 = 0 := by
      simp only [length_cons] at h
      omega
    simp only [limbSum] at hsum
    have hshift : shift + k + k = shift + 2 * k ∧ shift + 2 * k + k = shift + 3 * k := by omega
    rw [hshift.1, hshift.2] at hsum
    -- the next accumulator
    obtain ⟨next, hnext⟩ : ∃ next, next = accumulator - s.getVariable a * 2 ^ shift -
      s.getVariable b * 2 ^ (shift + k) - s.getVariable c * 2 ^ (shift + 2 * k) := ⟨_, rfl⟩
    rw [UltraRange.addAccumulators, ← hnext] at hgrows
    obtain ⟨hcoherent', hgrows₁, hlength, -, hlast⟩ := hcoherent.addVariable next
    have hfull' := hfull.grows hcoherent hgrows₁ rfl rfl
    have hgrows₂ := ((joins_addAccumulators (fun _ _ => True) k rest (shift + 3 * k) next hcoherent'
      hfull').1.grows).trans hgrows
    have hsame : ∀ x < s.values.length, s'.values.getD x 0 = s.values.getD x 0 := fun x hx =>
      (hgrows₁.trans hgrows₂).getD hx
    have hnextValue : s'.values.getD s.values.length 0 = next :=
      (hgrows₂.getD (by omega)).trans hlast
    have hsumRest : next = limbSum (fun i => s.values.getD i 0) k (shift + 3 * k) rest := by
      rw [hnext, hcoherent.getVariable, hcoherent.getVariable, hcoherent.getVariable, hsum]
      ring
    have ha := hsame a (hlt a (by simp))
    have hb := hsame b (hlt b (by simp))
    have hc := hsame c (hlt c (by simp))
    refine ⟨?_, ?_⟩
    · show s'.values.getD a 0 * 2 ^ shift + s'.values.getD b 0 * 2 ^ (shift + k) +
        s'.values.getD c 0 * 2 ^ (shift + 2 * k) +
          (if rest.isEmpty then 0 else s'.values.getD s.values.length 0) = s'.values.getD acc 0
      rw [ha, hb, hc, hnextValue, hsame acc hacc, hvalue, hsum]
      cases hempty : rest.isEmpty with
      | true =>
        obtain rfl := List.isEmpty_iff.1 hempty
        rw [if_pos rfl, limbSum]
        ring
      | false =>
        rw [if_neg Bool.false_ne_true, hsumRest]
        ring
    · rw [← hlength]
      refine limbsAdd_addAccumulators hcoherent' hfull' hrest (fun x hx => ?_) (by omega) hlast ?_
        hgrows
      · have := hlt x (by simp [hx])
        omega
      · exact hsumRest.trans
          (limbSum_congr fun x hx => (hgrows₁.getD (hlt x (by simp [hx]))).symm)

theorem limbSum_append_zeros (hzero : v zeroIdx = 0) (limbs : List ℕ) (m shift : ℕ) :
    limbSum v k shift (limbs ++ List.replicate m zeroIdx) = limbSum v k shift limbs := by
  induction limbs generalizing shift with
  | nil =>
    rw [nil_append]
    induction m generalizing shift with
    | zero => rfl
    | succ m ih =>
      rw [replicate_succ]
      show v zeroIdx * 2 ^ shift + limbSum v k (shift + k) (List.replicate m zeroIdx) = 0
      rw [ih, hzero, zero_mul, limbSum, zero_add]
  | cons limb limbs ih => rw [cons_append, limbSum, limbSum, ih]

theorem limbSum_eq_ofDigits (limbs : List ℕ) (shift : ℕ) : limbSum v k shift limbs =
    ((2 ^ shift * Nat.ofDigits (2 ^ k) (limbs.map fun x => (v x).val) : ℕ) : FF) := by
  induction limbs generalizing shift with
  | nil => simp [limbSum]
  | cons limb limbs ih =>
    rw [limbSum, ih, map_cons, Nat.ofDigits_cons]
    push_cast
    rw [ZMod.natCast_rightInverse (v limb)]
    ring

theorem length_padLimbs (limbs : List ℕ) : (padLimbs limbs).length % 3 = 0 := by
  rw [padLimbs, length_append, length_replicate]
  omega

end Limbs

/-! ### Digits -/

section Digits

variable {k n : ℕ} {digits : List ℕ}

theorem ofDigits_lt {sizes : List ℕ}
    (h : List.Forall₂ (fun digit size => digit < 2 ^ size) digits sizes)
    (hsizes : ∀ size ∈ sizes.dropLast, size = k) (hlast : ∀ size ∈ sizes, size ≤ k) :
    Nat.ofDigits (2 ^ k) digits < 2 ^ sizes.sum := by
  induction h with
  | nil => simp
  | @cons digit size digits sizes hdigit hrest ih =>
    cases hrest with
    | nil => simpa using hdigit
    | @cons digit' size' digits' sizes' hdigit' hrest' =>
      have hsize : size = k := hsizes size (by simp)
      have hih := ih (fun x hx => hsizes x (by simp [List.dropLast] at hx ⊢; exact .inr hx))
        fun x hx => hlast x (mem_cons_of_mem _ hx)
      rw [Nat.ofDigits_cons, sum_cons, hsize, pow_add]
      rw [hsize] at hdigit
      calc digit + 2 ^ k * Nat.ofDigits (2 ^ k) (digit' :: digits')
          < 2 ^ k + 2 ^ k * Nat.ofDigits (2 ^ k) (digit' :: digits') := by omega
        _ = 2 ^ k * (Nat.ofDigits (2 ^ k) (digit' :: digits') + 1) := by ring
        _ ≤ 2 ^ k * 2 ^ (size' :: sizes').sum := Nat.mul_le_mul_left _ hih

theorem digit_ofDigits {b : ℕ} (hb : 0 < b) (h : ∀ d ∈ digits, d < b) (i : ℕ)
    (hi : i < digits.length) : Nat.ofDigits b digits / b ^ i % b = digits[i] := by
  induction digits generalizing i with
  | nil => exact absurd hi (Nat.not_lt_zero i)
  | cons d digits ih =>
    have hd := h d mem_cons_self
    rw [Nat.ofDigits_cons]
    cases i with
    | zero => rw [pow_zero, Nat.div_one, Nat.add_mul_mod_self_left, Nat.mod_eq_of_lt hd]; rfl
    | succ i =>
      have hi' : i < digits.length := by simpa using hi
      rw [pow_succ', ← Nat.div_div_eq_div_mul, Nat.add_mul_div_left _ _ hb,
        Nat.div_eq_of_lt hd, zero_add, ih (fun x hx => h x (mem_cons_of_mem _ hx)) i hi']
      rfl

theorem ofDigits_sublimbs (k : ℕ) (m value : ℕ) :
    Nat.ofDigits (2 ^ k) (sublimbs value k m) = value % (2 ^ k) ^ m := by
  rw [sublimbs]
  induction m generalizing value with
  | zero => simp [Nat.mod_one]
  | succ m ih =>
    rw [range_succ_eq_map, map_cons, List.map_map, Nat.ofDigits_cons]
    have hmap : (List.range m).map
        ((fun i => value / (2 ^ k) ^ i % 2 ^ k) ∘ Nat.succ) =
          (List.range m).map fun i => value / 2 ^ k / (2 ^ k) ^ i % 2 ^ k := by
      refine map_congr_left fun i _ => ?_
      show value / (2 ^ k) ^ (i + 1) % 2 ^ k = _
      rw [pow_succ', Nat.div_div_eq_div_mul]
    rw [hmap, ih, pow_zero, Nat.div_one, pow_succ', Nat.mod_mul]

theorem sum_limbSizes : (limbSizes n k).sum = n := by
  rw [limbSizes, sum_append, sum_replicate, smul_eq_mul]
  have hdiv := Nat.div_add_mod n k
  rw [mul_comm] at hdiv
  split
  · next h => rwa [h] at hdiv
  · rwa [sum_singleton]

theorem mem_limbSizes (hk : 0 < k) : (∀ size ∈ limbSizes n k, size ≤ k) ∧
    ∀ size ∈ (limbSizes n k).dropLast, size = k := by
  rw [limbSizes]
  have hmod := Nat.mod_lt n hk
  split
  · rw [append_nil]
    exact ⟨fun size h => (eq_of_mem_replicate h).le,
      fun size h => eq_of_mem_replicate (mem_of_mem_dropLast h)⟩
  · refine ⟨fun size h => ?_, fun size h => ?_⟩
    · rcases mem_append.1 h with h | h
      · exact (eq_of_mem_replicate h).le
      · rw [mem_singleton.1 h]
        exact hmod.le
    · rw [dropLast_concat] at h
      exact eq_of_mem_replicate h

theorem length_limbSizes (hn : 0 < n) (hk : 0 < k) :
    0 < (limbSizes n k).length ∧ n ≤ k * (limbSizes n k).length := by
  have hmod := Nat.mod_lt n hk
  have hdiv := Nat.div_add_mod n k
  rw [limbSizes, length_append, length_replicate]
  split
  · next h =>
    rw [length_nil, add_zero]
    rw [h, add_zero] at hdiv
    refine ⟨Nat.pos_of_ne_zero fun h0 => ?_, hdiv.ge⟩
    rw [h0, mul_zero] at hdiv
    omega
  · rw [length_singleton, mul_add, mul_one]
    exact ⟨Nat.succ_pos _, by omega⟩

theorem sublimbs_lt {value : ℕ} (hvalue : value < 2 ^ n) :
    List.Forall₂ (fun digit size => digit < 2 ^ size)
      (sublimbs value k (limbSizes n k).length) (limbSizes n k) := by
  rw [List.forall₂_iff_get]
  refine ⟨by simp [sublimbs], fun i hi hi' => ?_⟩
  simp only [sublimbs, get_eq_getElem, getElem_map, getElem_range]
  have hdiv := Nat.div_add_mod n k
  rcases Nat.lt_or_ge i (n / k) with hlt | hge
  · have hsize : (limbSizes n k)[i] = k := by
      simp only [limbSizes]
      rw [getElem_append_left (by simpa using hlt)]
      simp
    rw [hsize]
    exact Nat.mod_lt _ (by positivity)
  · -- the last limb
    have hsize : i = n / k ∧ (limbSizes n k)[i] = n % k := by
      have hcount := hi'
      simp only [limbSizes, length_append, length_replicate] at hcount
      split at hcount
      · simp at hcount
        omega
      · next hmod =>
        rw [length_singleton] at hcount
        have hi : i = n / k := by omega
        subst hi
        refine ⟨rfl, ?_⟩
        simp only [limbSizes, if_neg hmod]
        rw [getElem_append_right (by simp)]
        simp
    rw [hsize.2, hsize.1]
    refine (Nat.mod_le _ _).trans_lt (Nat.div_lt_of_lt_mul ?_)
    rw [← pow_mul, ← pow_add, hdiv]
    exact hvalue

end Digits

end UltraRange
