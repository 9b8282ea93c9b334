/-
**What range constraints say.**

For every sequence of calls, an assignment of the finalised circuit has all values in the ranges of
their variables, and decomposed values have few bits and the digits that were returned.  When the
values of the builder are in their ranges they satisfy the circuit.
-/

import Aztec.UltraRangeLists

open List

namespace UltraRange

open UltraGates

/-! ### Values in their ranges -/

/-- The values are in all ranges, and the decomposed ones have few bits. -/
structure InRanges (s : Builder) (v : ℕ → FF) : Prop where
  ranges : ∀ p ∈ s.ranges, (v p.1).val ≤ p.2
  decompositions : ∀ d ∈ s.decompositions, (v d.variableIndex).val < 2 ^ d.numBits

/-- The limbs of a decomposition are the digits of the value. -/
def HasDigits (v : ℕ → FF) (d : Decomposition) : Prop :=
  d.limbs.map (fun i => (v i).val) = sublimbs (v d.variableIndex).val d.targetRangeBitnum
    (limbSizes d.numBits d.targetRangeBitnum).length

/-! ### The invariant -/

/-- The limbs of a decomposition have their ranges, and the gates are there. -/
structure Decomposed (s : Builder) (d : Decomposition) : Prop where
  lt : d.variableIndex < s.values.length
  numBits : 0 < d.numBits ∧ d.numBits ≤ 253
  bitnum : 1 ≤ d.targetRangeBitnum ∧ d.targetRangeBitnum ≤ 14
  limbs : List.Forall₂ (fun limb size => Constrained s limb (2 ^ size - 1)) d.limbs
    (limbSizes d.numBits d.targetRangeBitnum)
  gates : ∃ pre next post, s.gates =
    pre ++ (limbGates d.targetRangeBitnum d.variableIndex 0 next (padLimbs d.limbs) ++ post)

/-- Values of the list of a range: they are in the range when `P` holds. -/
def Allowed (P : Prop) (t : ℕ) (x : FF) : Prop := t < 2 ^ 32 ∧ (P → x.val ≤ t)

/-- The values of the builder satisfy the gates, also when there are more. -/
def GatesHold (s : Builder) : Prop :=
  ∀ s', Grows s s' → ∀ alpha eta post, Satisfied alpha eta (value s') post →
    Satisfied alpha eta (value s') (s.gates ++ post)

structure Valid (s : Builder) : Prop where
  coherent : Coherent s
  full : Full s
  ranges : ∀ p ∈ s.ranges, p.1 < s.values.length ∧ Constrained s p.1 p.2
  decompositions : ∀ d ∈ s.decompositions, Decomposed s d
  lists : ∀ t, ∀ y ∈ s.rangeList t, Allowed (InRanges s (value s)) t (value s y)
  gates : InRanges s (value s) → GatesHold s

section Gates

variable {s s' : Builder} {v : ℕ → FF} {alpha eta : FF}

variable {shifted : Wires FF}

theorem holds_copyGate {x y : ℕ} :
    Holds alpha eta (copyGate x y) (wiresOf v (copyGate x y)) shifted ↔ v x = v y := by
  rw [copyGate, holds_bigAdd]
  simp only [wiresOf, createBigAddGate]
  constructor
  · intro h
    linear_combination h
  · intro h
    linear_combination h

theorem holds_zeroGate :
    Holds alpha eta (fixWitness zeroIdx zeroIdx 0) (wiresOf v (fixWitness zeroIdx zeroIdx 0))
      shifted ↔ v zeroIdx = 0 := by
  rw [fixWitness, holds_bigAdd]
  simp only [wiresOf, createBigAddGate]
  constructor
  · intro h
    linear_combination h
  · intro h
    linear_combination h

theorem IsCopy.holds {g : Gate FF} (h : IsCopy s g) (hgrows : Grows s s') :
    Holds alpha eta g (wiresOf (value s') g) shifted := by
  obtain ⟨x, y, rfl, hx, hy, heq⟩ := h
  exact holds_copyGate.2 ((hgrows.getD hx).trans (heq.trans (hgrows.getD hy).symm))

end Gates

/-! ### Calls keep it -/

section Calls

variable {s s' s'' : Builder}

theorem Decomposed.grows {d : Decomposition} (h : Decomposed s d) (hgrows : Grows s s') :
    Decomposed s' d where
  lt := h.lt.trans_le hgrows.length_le
  numBits := h.numBits
  bitnum := h.bitnum
  limbs := h.limbs.imp fun _ _ hlimb => hlimb.grows hgrows
  gates := by
    obtain ⟨pre, next, post, hgates⟩ := h.gates
    obtain ⟨rest, hrest⟩ := hgrows.gates
    exact ⟨pre, next, post ++ rest, by rw [hrest, hgates, append_assoc, append_assoc]⟩

theorem valid_new : Valid .new where
  coherent := coherent_new
  full _ ht := absurd ht not_mem_nil
  ranges _ hp := absurd hp not_mem_nil
  decompositions _ hd := absurd hd not_mem_nil
  lists _ _ hy := absurd hy not_mem_nil
  gates _ s' hgrows alpha eta post hpost := by
    refine ⟨holds_zeroGate.2 ?_, hpost⟩
    exact (hgrows.getD coherent_new.pos).trans coherent_new.zero

theorem Valid.extend (h : Valid s) {newGates : List (Gate FF)} {newRanges : List (ℕ × ℕ)}
    {newDecompositions : List Decomposition} (heq : s'' = { s' with
      gates := s'.gates ++ newGates
      ranges := s'.ranges ++ newRanges
      decompositions := s'.decompositions ++ newDecompositions })
    (hjoins : Joins (Allowed (InRanges s'' (value s''))) s s') (hfull : Full s')
    (hranges : ∀ p ∈ newRanges, p.1 < s'.values.length ∧ Constrained s' p.1 p.2)
    (hdecompositions : ∀ d ∈ newDecompositions, Decomposed s'' d)
    (hgates : InRanges s'' (value s'') → ∀ s₃, Grows s'' s₃ → ∀ alpha eta post,
      Satisfied alpha eta (value s₃) post → Satisfied alpha eta (value s₃) (newGates ++ post)) :
    Valid s'' := by
  have hgrows : Grows s' s'' := by
    subst heq
    exact ⟨⟨[], (append_nil _).symm⟩, fun _ _ htag => htag, ⟨newGates, rfl⟩⟩
  have hvalue : ∀ i < s.values.length, value s'' i = value s i := fun i hi =>
    (hjoins.grows.trans hgrows).getD hi
  have hback : InRanges s'' (value s'') → InRanges s (value s) := by
    intro hin
    refine ⟨fun p hp => ?_, fun d hd => ?_⟩
    · rw [← hvalue p.1 (h.ranges p hp).1]
      refine hin.ranges p ?_
      rw [heq]
      exact mem_append_left _ (hjoins.ranges ▸ hp)
    · rw [← hvalue d.variableIndex (h.decompositions d hd).lt]
      refine hin.decompositions d ?_
      rw [heq]
      exact mem_append_left _ (hjoins.decompositions ▸ hd)
  refine
    { coherent := ?_
      full := ?_
      ranges := fun p hp => ?_
      decompositions := fun d hd => ?_
      lists := fun t y hy => ?_
      gates := fun hin s₃ hs₃ alpha eta post hpost => ?_ }
  · rw [heq]
    exact { hjoins.coherent with zeroGate := mem_append_left _ hjoins.coherent.zeroGate }
  · rw [heq]
    exact fun t ht => hfull t ht
  · have hp' : p ∈ s.ranges ∨ p ∈ newRanges := by
      rw [heq] at hp
      exact hjoins.ranges ▸ mem_append.1 hp
    rcases hp' with hp | hp
    · obtain ⟨hlt, hconstrained⟩ := h.ranges p hp
      exact ⟨hlt.trans_le (hjoins.grows.trans hgrows).length_le,
        hconstrained.grows (hjoins.grows.trans hgrows)⟩
    · obtain ⟨hlt, hconstrained⟩ := hranges p hp
      exact ⟨hlt.trans_le hgrows.length_le, hconstrained.grows hgrows⟩
  · have hd' : d ∈ s.decompositions ∨ d ∈ newDecompositions := by
      rw [heq] at hd
      exact hjoins.decompositions ▸ mem_append.1 hd
    exact hd'.elim (fun hd => (h.decompositions d hd).grows (hjoins.grows.trans hgrows))
      (hdecompositions d)
  · have hy' : y ∈ s'.rangeList t := by
      rw [heq] at hy
      exact hy
    rcases hjoins.lists t y hy' with hmem | hallowed
    · obtain ⟨ht, hle⟩ := h.lists t y hmem
      exact ⟨ht, fun hin => hvalue y (h.coherent.memLt t y hmem) ▸ hle (hback hin)⟩
    · have hsame : value s'' y = value s' y := hgrows.getD (hjoins.coherent.memLt t y hy')
      rw [hsame]
      exact hallowed
  · obtain ⟨copies, hcopies, hcopy⟩ := hjoins.gates
    have hsplit : s''.gates ++ post = s.gates ++ (copies ++ (newGates ++ post)) := by
      rw [heq]
      show s'.gates ++ newGates ++ post = _
      rw [hcopies, append_assoc, append_assoc]
    rw [hsplit]
    refine h.gates (hback hin) s₃ ((hjoins.grows.trans hgrows).trans hs₃) alpha eta _ ?_
    exact satisfied_append (fun g hg _ => (hcopy g hg).holds (hgrows.trans hs₃))
      (hgates hin s₃ hs₃ alpha eta post hpost)

theorem Valid.of_joins (h : Valid s) (hjoins : ∀ Q, Joins Q s s') (hfull : Full s') : Valid s' := by
  have heq : s' = { s' with
      gates := s'.gates ++ []
      ranges := s'.ranges ++ []
      decompositions := s'.decompositions ++ [] } := by
    rw [append_nil, append_nil, append_nil]
  exact h.extend heq (hjoins _) hfull (fun _ hp => absurd hp not_mem_nil)
    (fun _ hd => absurd hd not_mem_nil) fun _ _ _ _ _ _ hpost => hpost

theorem allowed_listValues (P : Prop) {t : ℕ} (ht : t < 2 ^ 32) :
    ∀ x ∈ listValues t, Allowed P t x := by
  have hmodulus : 2 ^ 253 < Kernel.fieldModulus := by norm_num [Kernel.fieldModulus]
  have hcast : ∀ n ≤ t, Allowed P t (n : FF) := fun n hn =>
    ⟨ht, fun _ => by rwa [ZMod.val_natCast_of_lt (by omega)]⟩
  intro x hx
  rcases mem_append.1 hx with hx | hx
  · obtain ⟨i, hi, rfl⟩ := mem_map.1 hx
    refine hcast _ ?_
    have hi := mem_range.1 hi
    rw [stepSize] at hi ⊢
    omega
  · rw [mem_singleton.1 hx]
    exact hcast t le_rfl

/-- The class of `B` has become a part of that of `A`. -/
structure Merged (s s' : Builder) (A B : ℕ) : Prop where
  ne : A ≠ B
  realA : s.realVariableIndex A = A
  realB : s.realVariableIndex B = B
  ltA : A < s.values.length
  ltB : B < s.values.length
  same : s.values.getD A 0 = s.values.getD B 0
  index : ∀ i, s'.realVariableIndex i =
    if s.realVariableIndex i = B then A else s.realVariableIndex i
  tagA : ∀ t, s'.realVariableTags A = .range t ↔
    s.realVariableTags A = .range t ∨ s.realVariableTags B = .range t
  tag : ∀ i, i ≠ A → s'.realVariableTags i = s.realVariableTags i
  tau : ∀ i t, s'.realVariableTags i = .tau t → ∃ j, s.realVariableTags j = .tau t
  frame : s' = { s with
    realVariableIndex := s'.realVariableIndex
    realVariableTags := s'.realVariableTags }

theorem assertEqual_merged (h : Coherent s) {a b : ℕ} (ha : a < s.values.length)
    (hb : b < s.values.length) (heq : assertEqual s a b = some s') :
    s' = s ∨ ∃ A B, Merged s s' A B := by
  simp only [UltraRange.assertEqual] at heq
  split at heq
  · next hcond =>
    obtain ⟨hvalues, hclash⟩ := hcond
    split at heq
    · exact .inl (Option.some_inj.1 heq).symm
    · next hne =>
      have hs' := (Option.some_inj.1 heq).symm
      refine .inr ⟨_, _, hne, h.idem a, h.idem b, h.lt a ha, h.lt b hb, hvalues,
        fun i => by rw [hs'], ?_, ?_, ?_, by rw [hs']⟩
      -- the class that stays has the tag of the other one, if it had none
      all_goals
        generalize s.realVariableIndex a = A at *
        generalize s.realVariableIndex b = B at *
        have htags : s'.realVariableTags = if s.realVariableTags A = .dummy then
          Function.update s.realVariableTags A (s.realVariableTags B) else s.realVariableTags := by
            rw [hs']
        rw [htags]
      · intro t
        split
        · next hdummy =>
          rw [Function.update_self, hdummy]
          exact ⟨.inr, fun h => h.resolve_left Tag.noConfusion⟩
        · next hdummy =>
          refine ⟨.inl, fun h => h.elim id fun htag => ?_⟩
          rcases hclash with h' | h' | h'
          · exact absurd h' hdummy
          · exact Tag.noConfusion (h'.symm.trans htag)
          · exact h'.trans htag
      · intro i hi
        split
        · exact Function.update_of_ne hi _ _
        · rfl
      · intro i t htau
        split at htau
        · rw [Function.update_apply] at htau
          split at htau
          · exact ⟨B, htau⟩
          · exact ⟨i, htau⟩
        · exact ⟨i, htau⟩
  · cases heq

theorem Merged.member {A B : ℕ} (hm : Merged s s' A B) (h : Coherent s) (i t : ℕ)
    (hi : s'.realVariableIndex i = i) :
    s'.realVariableTags i = .range t ↔ ∃ x ∈ s.rangeList t, s'.realVariableIndex x = i := by
  by_cases hiA : i = A
  · subst hiA
    rw [hm.tagA, h.member i t hm.realA, h.member B t hm.realB]
    constructor
    · rintro (⟨x, hx, hxi⟩ | ⟨x, hx, hxB⟩)
      · exact ⟨x, hx, by rw [hm.index, hxi, if_neg hm.ne]⟩
      · exact ⟨x, hx, by rw [hm.index, if_pos hxB]⟩
    · rintro ⟨x, hx, hxi⟩
      rw [hm.index] at hxi
      split at hxi
      · next hxB => exact .inr ⟨x, hx, hxB⟩
      · exact .inl ⟨x, hx, hxi⟩
  · rw [hm.index] at hi
    split at hi
    · exact absurd hi.symm hiA
    · next hiB =>
      rw [hm.tag i hiA, h.member i t hi]
      constructor
      · rintro ⟨x, hx, hxi⟩
        exact ⟨x, hx, by rw [hm.index, hxi, if_neg (hi ▸ hiB)]⟩
      · rintro ⟨x, hx, hxi⟩
        rw [hm.index] at hxi
        split at hxi
        · exact absurd hxi.symm hiA
        · exact ⟨x, hx, hxi⟩

theorem Merged.coherent {A B : ℕ} (hm : Merged s s' A B) (h : Coherent s) : Coherent s' := by
  have hvalues : s'.values = s.values := by rw [hm.frame]
  have hlist : s'.rangeList = s.rangeList := by rw [hm.frame]
  have htargets : s'.targets = s.targets := by rw [hm.frame]
  constructor
  case idem =>
    intro i
    rw [hm.index i]
    split
    · rw [hm.index, hm.realA, if_neg hm.ne]
    · next hi => rw [hm.index, h.idem, if_neg hi]
  case fresh =>
    intro i hi
    rw [hvalues] at hi
    obtain ⟨hself, hdummy⟩ := h.fresh i hi
    rw [hm.index, hself, if_neg (hm.ltB.trans_le hi).ne', hm.tag i (hm.ltA.trans_le hi).ne']
    exact ⟨rfl, hdummy⟩
  case lt =>
    intro i hi
    rw [hvalues] at hi ⊢
    rw [hm.index]
    split
    · exact hm.ltA
    · exact h.lt i hi
  case pos => exact hvalues ▸ h.pos
  case zero => exact hvalues ▸ h.zero
  case zeroGate =>
    rw [hm.frame]
    exact h.zeroGate
  case tau =>
    intro i t htau
    obtain ⟨j, hj⟩ := hm.tau i t htau
    exact h.tau j t hj
  case member => exact hlist ▸ hm.member h
  case memLt => exact hlist ▸ hvalues ▸ h.memLt
  case target => exact hlist ▸ htargets ▸ h.target
  case nodup => exact htargets ▸ h.nodup
  case same =>
    intro i
    rw [hm.index, hvalues]
    split
    · next hi => rw [hm.same, ← hi, h.same]
    · exact h.same i

theorem Merged.grows {A B : ℕ} (hm : Merged s s' A B) : Grows s s' := by
  refine ⟨⟨[], by rw [hm.frame, append_nil]⟩, fun i t hi => ?_,
    ⟨[], by rw [hm.frame, append_nil]⟩⟩
  have hi : s.realVariableTags (s.realVariableIndex i) = .range t := hi
  show s'.realVariableTags (s'.realVariableIndex i) = .range t
  rw [hm.index]
  split
  · next hiB => exact (hm.tagA t).2 (.inr (hiB ▸ hi))
  · by_cases hiA : s.realVariableIndex i = A
    · rw [hiA]
      exact (hm.tagA t).2 (.inl (hiA ▸ hi))
    · exact (hm.tag _ hiA).trans hi

theorem Coherent.assertEqual (h : Coherent s) (hfull : Full s) {a b : ℕ}
    (ha : a < s.values.length) (hb : b < s.values.length) (heq : assertEqual s a b = some s') :
    (∀ Q, Joins Q s s') ∧ Full s' := by
  rcases assertEqual_merged h ha hb heq with rfl | ⟨A, B, hm⟩
  · exact ⟨fun _ => .refl h, hfull⟩
  · refine ⟨fun Q => ⟨hm.coherent h, hm.grows, fun t y hy => ?_, ⟨[], ?_, ?_⟩, ?_, ?_⟩, ?_⟩
    · rw [hm.frame] at hy
      exact .inl hy
    · rw [hm.frame, append_nil]
    · exact fun _ hg => absurd hg not_mem_nil
    all_goals rw [hm.frame]
    exact hfull

variable {k n x : ℕ} {limbs : List ℕ}

theorem val_limb {value size : ℕ} (hk : k ≤ 14) (hsize : size ≤ k) (hvalue : value < 2 ^ size) :
    ((value : ℕ) : FF).val = value := by
  have hmodulus : 2 ^ 253 < Kernel.fieldModulus := by norm_num [Kernel.fieldModulus]
  have hle : 2 ^ size ≤ 2 ^ 14 := Nat.pow_le_pow_right two_pos (hsize.trans hk)
  exact ZMod.val_natCast_of_lt (by omega)

theorem limbSum_sublimbs {v : ℕ → FF} {x : FF} (hn : 0 < n) (hk : 1 ≤ k ∧ k ≤ 14)
    (hx : x.val < 2 ^ n) (hzero : v zeroIdx = 0)
    (hlimbs : limbs.map v = (sublimbs x.val k (limbSizes n k).length).map (Nat.cast : ℕ → FF)) :
    x = limbSum v k 0 (padLimbs limbs) := by
  have hdigits : (limbs.map fun i => (v i).val) = sublimbs x.val k (limbSizes n k).length := by
    have hval := congrArg (List.map ZMod.val) hlimbs
    rw [List.map_map, List.map_map] at hval
    refine hval.trans ((map_congr_left fun digit hdigit => ?_).trans (List.map_id _))
    obtain ⟨i, -, rfl⟩ := mem_map.1 hdigit
    exact val_limb hk.2 le_rfl (Nat.mod_lt _ (Nat.two_pow_pos k))
  have hlength := (length_limbSizes hn (Nat.pos_of_ne_zero (by omega) : 0 < k)).2
  have hbits : x.val < (2 ^ k) ^ (limbSizes n k).length := by
    rw [← pow_mul]
    exact hx.trans_le (Nat.pow_le_pow_right two_pos hlength)
  rw [padLimbs, limbSum_append_zeros hzero, limbSum_eq_ofDigits, hdigits, ofDigits_sublimbs,
    Nat.mod_eq_of_lt hbits, pow_zero, one_mul, ZMod.natCast_rightInverse]

theorem mem_padLimbs (hx : x ∈ padLimbs limbs) : x ∈ limbs ∨ x = zeroIdx :=
  (mem_append.1 hx).imp_right eq_of_mem_replicate

theorem Valid.decomposeIntoDefaultRange (h : Valid s) (hx : x < s.values.length)
    (hn : 0 < n ∧ n ≤ 253) (hk : 1 ≤ k ∧ k ≤ 14) : Valid (decomposeIntoDefaultRange s x n k) := by
  -- the states and the new limbs
  obtain ⟨pairs, hpairs⟩ : ∃ pairs, pairs =
      (sublimbs (s.getVariable x).val k (limbSizes n k).length).zip (limbSizes n k) := ⟨_, rfl⟩
  obtain ⟨s₁, limbs, hs₁⟩ : ∃ s₁ limbs, addLimbs s pairs = (s₁, limbs) := ⟨_, _, rfl⟩
  obtain ⟨s₂, hs₂⟩ : ∃ s₂, s₂ = addAccumulators s₁ k 0 (s.getVariable x) (padLimbs limbs) :=
    ⟨_, rfl⟩
  obtain ⟨s'', hs''⟩ : ∃ s'', s'' = UltraRange.decomposeIntoDefaultRange s x n k := ⟨_, rfl⟩
  rw [← hs'']
  have heq : s'' = { s₂ with
      gates := s₂.gates ++ limbGates k x 0 s₁.values.length (padLimbs limbs)
      ranges := s₂.ranges ++ []
      decompositions := s₂.decompositions ++ [⟨x, n, k, limbs⟩] } := by
    rw [hs'', UltraRange.decomposeIntoDefaultRange, ← hpairs, hs₁, hs₂, append_nil]
  have hlengths : (sublimbs (s.getVariable x).val k (limbSizes n k).length).length =
      (limbSizes n k).length := by simp [sublimbs]
  have hsnd : pairs.map Prod.snd = limbSizes n k := by
    rw [hpairs, map_snd_zip hlengths.ge]
  have hfst : pairs.map Prod.fst = sublimbs (s.getVariable x).val k (limbSizes n k).length := by
    rw [hpairs, map_fst_zip hlengths.le]
  -- what they do, whatever the values
  have hsteps : ∀ Q, (∀ p ∈ pairs, (∀ value ∈ listValues (2 ^ p.2 - 1), Q (2 ^ p.2 - 1) value) ∧
      Q (2 ^ p.2 - 1) p.1) → (Joins Q s s₁ ∧ Full s₁ ∧ List.Forall₂ (IsLimb s₁) limbs pairs) ∧
        Joins Q s₁ s₂ ∧ Full s₂ := by
    intro Q hQ
    have hlimbs := h.coherent.addLimbs h.full hQ
    rw [hs₁] at hlimbs
    refine ⟨hlimbs, ?_⟩
    rw [hs₂]
    exact joins_addAccumulators Q k _ 0 _ hlimbs.1.coherent hlimbs.2.1
  obtain ⟨⟨hjoins₁, hfull₁, hlimbs⟩, hjoins₂, hfull₂⟩ :=
    hsteps (fun _ _ => True) fun _ _ => ⟨fun _ _ => trivial, trivial⟩
  have hgrows : Grows s₂ s'' := by
    rw [heq]
    exact ⟨⟨[], (append_nil _).symm⟩, fun _ _ htag => htag, ⟨_, rfl⟩⟩
  have hvalue : value s'' x = s.getVariable x :=
    (((hjoins₁.grows.trans hjoins₂.grows).trans hgrows).getD hx).trans
      (h.coherent.getVariable x).symm
  have hbound : InRanges s'' (value s'') → (s.getVariable x).val < 2 ^ n := by
    intro hin
    rw [← hvalue]
    refine hin.decompositions ⟨x, n, k, limbs⟩ ?_
    rw [heq]
    exact mem_append_right _ (mem_singleton_self _)
  -- the digits are allowed
  have hallowed : ∀ p ∈ pairs, (∀ y ∈ listValues (2 ^ p.2 - 1),
      Allowed (InRanges s'' (value s'')) (2 ^ p.2 - 1) y) ∧
        Allowed (InRanges s'' (value s'')) (2 ^ p.2 - 1) p.1 := by
    intro p hp
    have hsize : p.2 ≤ k := (mem_limbSizes (Nat.pos_of_ne_zero (by omega))).1 p.2
      (hsnd ▸ mem_map_of_mem hp)
    have hrange : 2 ^ p.2 - 1 < 2 ^ 32 := by
      have : 2 ^ p.2 ≤ 2 ^ 14 := Nat.pow_le_pow_right two_pos (hsize.trans hk.2)
      omega
    refine ⟨allowed_listValues _ hrange, hrange, fun hin => ?_⟩
    have hdigit : p.1 < 2 ^ p.2 := (List.forall₂_iff_zip.1 (sublimbs_lt (hbound hin))).2
      (by rw [← hpairs]; exact hp)
    rw [val_limb hk.2 hsize hdigit]
    omega
  obtain ⟨⟨hjoins, -, -⟩, hjoins', -⟩ := hsteps _ hallowed
  refine h.extend heq (hjoins.trans hjoins') hfull₂ (fun _ hp => absurd hp not_mem_nil)
    (fun d hd => ?_) fun hin s₃ hs₃ alpha eta post hpost => ?_
  · rw [mem_singleton.1 hd]
    refine ⟨hx.trans_le ((hjoins₁.grows.trans hjoins₂.grows).trans hgrows).length_le, hn, hk, ?_,
      s₂.gates, s₁.values.length, [], ?_⟩
    · show List.Forall₂ _ limbs (limbSizes n k)
      rw [← hsnd, List.forall₂_map_right_iff]
      exact hlimbs.imp fun _ _ hlimb => hlimb.2.1.grows (hjoins₂.grows.trans hgrows)
    · rw [heq]
      exact congrArg (s₂.gates ++ ·) (append_nil _).symm
  · -- the values of the limbs add up
    have hzero : value s₁ zeroIdx = 0 := hjoins₁.coherent.zero
    have hmap : limbs.map (value s₁) =
        (sublimbs (s.getVariable x).val k (limbSizes n k).length).map (Nat.cast : ℕ → FF) := by
      rw [← hfst, List.map_map]
      exact (UltraMemory.map_eq_of_forall₂ hlimbs fun _ _ _ hlimb => hlimb.2.2.symm).symm
    have hsum := limbSum_sublimbs hn.1 hk (hbound hin) hzero hmap
    have hmem : ∀ y ∈ padLimbs limbs, y < s₁.values.length := by
      intro y hy
      rcases mem_padLimbs hy with hy | rfl
      · obtain ⟨i, hi, rfl⟩ := getElem_of_mem hy
        exact (hlimbs.get hi (hlimbs.length_eq ▸ hi)).1
      · exact hjoins₁.coherent.pos
    have hx₁ : x < s₁.values.length := hx.trans_le hjoins₁.grows.length_le
    refine (satisfied_limbGates (length_padLimbs limbs)).2 ⟨?_, hpost⟩
    exact limbsAdd_addAccumulators hjoins₁.coherent hfull₁ (length_padLimbs limbs) hmem hx₁
      ((hjoins₁.grows.getD hx).trans (h.coherent.getVariable x).symm) hsum
      (hs₂ ▸ hgrows.trans hs₃)

theorem Valid.step (h : Valid s) {call : Call} (hstep : step s call = some s') : Valid s' := by
  cases call with
  | addVariable x =>
    obtain rfl := Option.some_inj.1 hstep
    obtain ⟨-, hgrows, -⟩ := h.coherent.addVariable x
    exact h.of_joins (fun Q => h.coherent.joins_addVariable x)
      (h.full.grows h.coherent hgrows rfl rfl)
  | assertEqual a b =>
    simp only [UltraRange.step] at hstep
    split at hstep
    · next hlt =>
      obtain ⟨hjoins, hfull⟩ := h.coherent.assertEqual h.full hlt.1 hlt.2 hstep
      exact h.of_joins hjoins hfull
    · cases hstep
  | createNewRangeConstraint x t =>
    simp only [UltraRange.step] at hstep
    split at hstep
    · next hcond =>
      obtain ⟨hx, ht⟩ := hcond
      have hs' := (Option.some_inj.1 hstep).symm
      have heq : s' = { createNewRangeConstraint s x t with
          gates := (createNewRangeConstraint s x t).gates ++ []
          ranges := (createNewRangeConstraint s x t).ranges ++ [(x, t)]
          decompositions := (createNewRangeConstraint s x t).decompositions ++ [] } := by
        rw [append_nil, append_nil]
        obtain ⟨hjoins, -⟩ := h.coherent.createNewRangeConstraint (Q := fun _ _ => True) h.full hx
          (fun _ _ => trivial) trivial (t := t)
        rw [hs', hjoins.ranges]
      obtain ⟨hjoins₀, -⟩ := h.coherent.createNewRangeConstraint (Q := fun _ _ => True) h.full hx
        (fun _ _ => trivial) trivial (t := t)
      have hvalue : value s' x = s.values.getD x 0 := by
        rw [hs']
        exact hjoins₀.grows.getD hx
      obtain ⟨hjoins, hfull, hconstrained⟩ := h.coherent.createNewRangeConstraint
        (Q := Allowed (InRanges s' (value s'))) h.full hx (allowed_listValues _ ht)
        ⟨ht, fun hin => by
          rw [← hvalue]
          refine hin.ranges (x, t) ?_
          rw [heq]
          exact mem_append_right _ (mem_singleton_self _)⟩
      refine h.extend heq hjoins hfull (fun p hp => ?_) (fun _ hd => absurd hd not_mem_nil)
        fun _ _ _ _ _ _ hpost => hpost
      rw [mem_singleton.1 hp]
      exact ⟨hx.trans_le hjoins.grows.length_le, hconstrained⟩
    · cases hstep
  | decomposeIntoDefaultRange x n k =>
    simp only [UltraRange.step] at hstep
    split at hstep
    · next hcond =>
      obtain ⟨hx, hn, hn', hk, hk'⟩ := hcond
      obtain rfl := Option.some_inj.1 hstep
      exact h.decomposeIntoDefaultRange hx ⟨hn, hn'⟩ ⟨hk, hk'⟩
    · cases hstep

end Calls

/-! ### Satisfying assignments -/

section Accepts

variable {s : Builder} {v : ℕ → FF}

section

variable (h : Valid s) (hbits : (finalize s).1.values.length ≤ 2 ^ 32) (haccepts : Accepts s v)
include h hbits haccepts

theorem Valid.constrained_le {x t : ℕ} (hx : Constrained s x t) : (v x).val ≤ t := by
  obtain ⟨y, r, hy, htag, hr, hxy⟩ := hx
  have hgates : (finalize s).1.gates = s.gates := (processRangeLists_keeps _).2.1
  have hcopies : ∀ i, v (s.realVariableIndex i) = v i := fun i => by
    have hcopy := haccepts.copies i
    rwa [finalize_realVariableIndex] at hcopy
  obtain ⟨z, hz, hzy⟩ := (h.coherent.member _ r (h.coherent.idem y)).1 htag
  have hr' : r ∈ s.targets := by
    by_contra hnot
    rw [h.coherent.target r hnot] at hz
    exact not_mem_nil hz
  have hle := haccepts.val_le h.coherent hr' (h.lists r z hz).1 hbits hz
  have hvz : v z = v y := by rw [← hcopies z, hzy, hcopies y]
  have hvx : v x = v y := by
    rcases hxy with rfl | hmem
    · rfl
    · obtain ⟨shifted, hshifted⟩ := (haccepts.gates 0 0).exists_holds
        (mem_append_left _ (hgates ▸ hmem))
      exact holds_copyGate.1 hshifted
  rw [hvx, ← hvz]
  exact hle.trans hr

theorem Valid.hasDigits {d : Decomposition} (hd : d ∈ s.decompositions) :
    (v d.variableIndex).val < 2 ^ d.numBits ∧ HasDigits v d := by
  obtain ⟨-, ⟨hn, hn'⟩, ⟨hk, hk'⟩, hlimbs, pre, next, post, hgates⟩ := h.decompositions d hd
  have hmodulus : 2 ^ 253 < Kernel.fieldModulus := by norm_num [Kernel.fieldModulus]
  have hsame : (finalize s).1.gates = s.gates := (processRangeLists_keeps _).2.1
  have hzero : v zeroIdx = 0 := by
    obtain ⟨shifted, hshifted⟩ := (haccepts.gates 0 0).exists_holds
      (mem_append_left _ (hsame ▸ h.coherent.zeroGate))
    exact holds_zeroGate.1 hshifted
  -- the digits are small
  have hdigits : List.Forall₂ (fun digit size => digit < 2 ^ size)
      (d.limbs.map fun i => (v i).val) (limbSizes d.numBits d.targetRangeBitnum) := by
    rw [List.forall₂_map_left_iff]
    refine hlimbs.imp fun limb size hlimb => ?_
    have := h.constrained_le hbits haccepts hlimb
    have := Nat.two_pow_pos size
    omega
  obtain ⟨hsize, hinit⟩ := mem_limbSizes (n := d.numBits) (k := d.targetRangeBitnum) (by omega)
  obtain ⟨hpos, -⟩ := length_limbSizes (k := d.targetRangeBitnum) hn (by omega)
  -- and the value is their sum
  have hsum : v d.variableIndex = limbSum v d.targetRangeBitnum 0 (padLimbs d.limbs) := by
    have hsatisfied := haccepts.gates 0 0
    rw [hsame, hgates, append_assoc, append_assoc] at hsatisfied
    have hadd := ((satisfied_limbGates (length_padLimbs d.limbs)).1 hsatisfied.of_append).1
    refine hadd.sum (length_padLimbs d.limbs) fun hnil => ?_
    have hlength := hlimbs.length_eq
    rw [(append_eq_nil_iff.1 hnil).1, length_nil] at hlength
    omega
  rw [padLimbs, limbSum_append_zeros hzero, limbSum_eq_ofDigits, pow_zero, one_mul] at hsum
  have hlt := ofDigits_lt hdigits hinit hsize
  rw [sum_limbSizes] at hlt
  have hle : 2 ^ d.numBits ≤ 2 ^ 253 := Nat.pow_le_pow_right two_pos hn'
  have hval : (v d.variableIndex).val =
      Nat.ofDigits (2 ^ d.targetRangeBitnum) (d.limbs.map fun i => (v i).val) := by
    rw [hsum, ZMod.val_natCast_of_lt (by omega)]
  refine ⟨hval ▸ hlt, ?_⟩
  have hlength : (d.limbs.map fun i => (v i).val).length =
      (limbSizes d.numBits d.targetRangeBitnum).length := hdigits.length_eq
  refine ext_getElem (by rw [hlength]; simp [sublimbs]) fun i hi hi' => ?_
  simp only [sublimbs, getElem_map, getElem_range]
  rw [hval, digit_ofDigits (Nat.two_pow_pos _) (fun digit hdigit => ?_) i hi, getElem_map]
  obtain ⟨j, hj, rfl⟩ := getElem_of_mem hdigit
  have hjsize := hdigits.get hj (hlength ▸ hj)
  exact hjsize.trans_le (Nat.pow_le_pow_right two_pos (hsize _ (getElem_mem _)))

theorem Valid.sound : InRanges s v ∧ ∀ d ∈ s.decompositions, HasDigits v d :=
  ⟨⟨fun p hp => h.constrained_le hbits haccepts (h.ranges p hp).2,
      fun _ hd => (h.hasDigits hbits haccepts hd).1⟩,
    fun _ hd => (h.hasDigits hbits haccepts hd).2⟩

end

end Accepts

/-! ### A decomposed variable with two ranges -/

namespace TwoRanges

def calls : List Call :=
  [.addVariable (6 : ℕ), .createNewRangeConstraint 1 7, .createNewRangeConstraint 1 6,
    .addVariable (6 : ℕ), .assertEqual 11 1, .decomposeIntoDefaultRange 11 3 2]

def circuit : Builder := (run calls).getD .new

end TwoRanges

end UltraRange
