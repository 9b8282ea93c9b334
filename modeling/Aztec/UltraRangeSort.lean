/-
**Sorted lists of the Ultra circuit builder.**

The gates of a sorted list have four variables each.  Neighbours differ by at most three, also
across gates, the first value is the start and the last one the end of the range.  In a field that
is much larger than the list this puts all values into the range, and a list with the multiples of
three of the range can be sorted so.
-/

import Aztec.UltraRange

open List

namespace UltraRange

open UltraGates

/-! ### Gates of sorted lists -/

structure SortGate extends Gate FF where
  q_sort : FF

theorem three_atLeastTwo : Nat.AtLeastTwo 3 := ⟨Nat.le_succ 2⟩

attribute [local instance] two_atLeastTwo three_atLeastTwo in
def neighbourDifference (first second : FF) : FF :=
  let delta := second - first
  (delta ^ 2 - delta) * (delta - 2) * (delta - 3)

/-- `compute_genperm_sort_identity`, without the random factor of the whole. -/
def computeGenpermSortIdentity (alpha q_sort : FF) (w shifted : Wires FF) : FF :=
  q_sort * (neighbourDifference w.w_1 w.w_2 + alpha * neighbourDifference w.w_2 w.w_3 +
    alpha ^ 2 * neighbourDifference w.w_3 w.w_4 +
      alpha ^ 3 * neighbourDifference w.w_4 shifted.w_1)

def SortSatisfied (alpha : FF) (v : ℕ → FF) : List SortGate → Prop
  | [] => True
  | g :: gates =>
    computeGenpermSortIdentity alpha g.q_sort (wiresOf v g.toGate)
        (nextWires v (gates.map SortGate.toGate)) = 0 ∧
      SortSatisfied alpha v gates

/-- A gate that fixes the value of its first variable. -/
def edgeGate (a b c d : ℕ) (value q_sort : FF) : SortGate :=
  ⟨createBigAddGate a b c d 1 0 0 0 (-value) false, q_sort⟩

def sortGate (a b c d : ℕ) : SortGate := ⟨auxGate .none a b c d, 1⟩

def middleGates : List ℕ → List SortGate
  | a :: b :: c :: d :: rest => sortGate a b c d :: middleGates rest
  | _ => []

/-- The last gate repeats the last variable, for the gate before it. -/
def createSortConstraintWithEdges (start last : FF) : List ℕ → List SortGate
  | a :: b :: c :: d :: rest =>
    edgeGate a b c d start 1 :: (middleGates rest ++
      [edgeGate ((d :: rest).getLast (cons_ne_nil _ _)) zeroIdx zeroIdx zeroIdx last 0])
  | _ => []

/-! ### What they say -/

def Step (v : ℕ → FF) (i j : ℕ) : Prop := ∃ delta : ℕ, delta ≤ 3 ∧ v j = v i + delta

structure Sorted (v : ℕ → FF) (start last : FF) (indices : List ℕ) : Prop where
  chain : indices.IsChain (Step v)
  first : ∀ i ∈ indices.head?, v i = start
  last : ∀ i ∈ indices.getLast?, v i = last

section Gates

variable {v : ℕ → FF} {start last : FF} {post : List SortGate}

theorem neighbourDifference_eq_zero {x y : FF} :
    neighbourDifference x y = 0 ↔ ∃ delta : ℕ, delta ≤ 3 ∧ y = x + delta := by
  have hfactor : neighbourDifference x y = (y - x) * (y - x - 1) * (y - x - 2) * (y - x - 3) := by
    simp only [neighbourDifference]
    ring
  rw [hfactor, mul_eq_zero, mul_eq_zero, mul_eq_zero]
  constructor
  · rintro (((h | h) | h) | h)
    · exact ⟨0, by omega, by push_cast; linear_combination h⟩
    · exact ⟨1, by omega, by push_cast; linear_combination h⟩
    · exact ⟨2, by omega, by push_cast; linear_combination h⟩
    · exact ⟨3, le_rfl, by push_cast; linear_combination h⟩
  · rintro ⟨delta, hdelta, rfl⟩
    interval_cases delta
    · exact .inl (.inl (.inl (by push_cast; ring)))
    · exact .inl (.inl (.inr (by push_cast; ring)))
    · exact .inl (.inr (by push_cast; ring))
    · exact .inr (by push_cast; ring)

theorem genpermSort_iff {w shifted : Wires FF} :
    (∀ alpha, computeGenpermSortIdentity alpha 1 w shifted = 0) ↔
      neighbourDifference w.w_1 w.w_2 = 0 ∧ neighbourDifference w.w_2 w.w_3 = 0 ∧
        neighbourDifference w.w_3 w.w_4 = 0 ∧ neighbourDifference w.w_4 shifted.w_1 = 0 := by
  have hpolynomial := coefficients_eq_zero UltraMemory.char_ne_two UltraMemory.char_ne_three
    (x := neighbourDifference w.w_4 shifted.w_1) (y := neighbourDifference w.w_3 w.w_4)
    (z := neighbourDifference w.w_2 w.w_3) (t := neighbourDifference w.w_1 w.w_2)
  have hidentity : ∀ alpha, computeGenpermSortIdentity alpha 1 w shifted =
      ((neighbourDifference w.w_4 shifted.w_1 * alpha + neighbourDifference w.w_3 w.w_4) * alpha +
        neighbourDifference w.w_2 w.w_3) * alpha + neighbourDifference w.w_1 w.w_2 := by
    intro alpha
    rw [computeGenpermSortIdentity]
    ring
  simp only [hidentity]
  rw [hpolynomial]
  tauto

theorem sortSatisfied_rows {e : SortGate} (he : e.q_sort = 0) :
    ∀ {rest : List ℕ} {g : SortGate}, g.q_sort = 1 → rest.length % 4 = 0 →
      e.w_l = (g.w_4 :: rest).getLast (cons_ne_nil _ _) →
        ((∀ alpha, SortSatisfied alpha v (g :: (middleGates rest ++ e :: post))) ↔
          (g.w_l :: g.w_r :: g.w_o :: g.w_4 :: rest).IsChain (Step v) ∧
            ∀ alpha, SortSatisfied alpha v post)
  | [], g, hg, _, hlast => by
    have hzero : ∀ alpha, computeGenpermSortIdentity alpha e.q_sort (wiresOf v e.toGate)
        (nextWires v (post.map SortGate.toGate)) = 0 := fun alpha => by
      rw [he, computeGenpermSortIdentity, zero_mul]
    have hself : neighbourDifference (v g.w_4) (v g.w_4) = 0 :=
      neighbourDifference_eq_zero.2 ⟨0, Nat.zero_le _, by simp⟩
    have hlast : e.w_l = g.w_4 := hlast
    simp only [middleGates, nil_append, SortSatisfied, map_cons, nextWires_cons, hzero,
      true_and, forall_and, hg]
    rw [genpermSort_iff]
    simp only [wiresOf, hlast, hself, and_true, neighbourDifference_eq_zero,
      isChain_cons_cons, isChain_singleton, Step]
  | [_], _, _, h, _ => by simp at h
  | [_, _], _, _, h, _ => by simp at h
  | [_, _, _], _, _, h, _ => by simp at h
  | a :: b :: c :: d :: rest, g, hg, h, hlast => by
    have hrest : rest.length % 4 = 0 := by
      simp only [length_cons] at h
      omega
    have hlast' : e.w_l = ((sortGate a b c d).w_4 :: rest).getLast (cons_ne_nil _ _) := by
      rw [hlast]
      simp only [getLast_cons_cons]
      rfl
    have ih := sortSatisfied_rows he (g := sortGate a b c d) rfl hrest hlast'
    simp only [middleGates, cons_append, SortSatisfied, map_cons, nextWires_cons,
      forall_and, hg] at ih ⊢
    rw [ih, genpermSort_iff]
    simp only [wiresOf, neighbourDifference_eq_zero, isChain_cons_cons, Step, sortGate, auxGate]
    tauto

theorem satisfied_middleGates {alpha eta : FF} {post : List (Gate FF)} : ∀ {rest : List ℕ},
    Satisfied alpha eta v ((middleGates rest).map SortGate.toGate ++ post) ↔
      Satisfied alpha eta v post
  | [] => Iff.rfl
  | [_] => Iff.rfl
  | [_, _] => Iff.rfl
  | [_, _, _] => Iff.rfl
  | a :: b :: c :: d :: rest => by
    rw [middleGates, map_cons, cons_append, Satisfied]
    exact (and_iff_right holds_none).trans satisfied_middleGates

theorem holds_edgeGate {alpha eta : FF} {a b c d : ℕ} {value q_sort : FF} {shifted : Wires FF} :
    Holds alpha eta (edgeGate a b c d value q_sort).toGate
      (wiresOf v (edgeGate a b c d value q_sort).toGate) shifted ↔ v a = value := by
  rw [edgeGate, holds_bigAdd]
  simp only [wiresOf, createBigAddGate]
  constructor
  · intro h
    linear_combination h
  · intro h
    linear_combination h

theorem satisfied_sortConstraint : ∀ {indices : List ℕ}, indices.length % 4 = 0 → indices ≠ [] →
    (((∀ alpha eta, Satisfied alpha eta v
        ((createSortConstraintWithEdges start last indices ++ post).map SortGate.toGate)) ∧
      ∀ alpha, SortSatisfied alpha v (createSortConstraintWithEdges start last indices ++ post)) ↔
        Sorted v start last indices ∧
          (∀ alpha eta, Satisfied alpha eta v (post.map SortGate.toGate)) ∧
            ∀ alpha, SortSatisfied alpha v post)
  | [], _, h => absurd rfl h
  | [_], h, _ => by simp at h
  | [_, _], h, _ => by simp at h
  | [_, _, _], h, _ => by simp at h
  | a :: b :: c :: d :: rest, h, _ => by
    have hrest : rest.length % 4 = 0 := by
      simp only [length_cons] at h
      omega
    have hrows := @sortSatisfied_rows v post
      (edgeGate ((d :: rest).getLast (cons_ne_nil _ _)) zeroIdx zeroIdx zeroIdx last 0)
      rfl rest (edgeGate a b c d start 1) rfl hrest rfl
    have hsatisfied : ∀ alpha eta, Satisfied alpha eta v
        ((createSortConstraintWithEdges start last (a :: b :: c :: d :: rest) ++ post).map
          SortGate.toGate) ↔ v a = start ∧ v ((d :: rest).getLast (cons_ne_nil _ _)) = last ∧
              Satisfied alpha eta v (post.map SortGate.toGate) := by
      intro alpha eta
      rw [createSortConstraintWithEdges, cons_append, append_assoc, map_cons,
        map_append, Satisfied, holds_edgeGate, satisfied_middleGates]
      rw [singleton_append, map_cons, Satisfied, holds_edgeGate]
    have hfirst : (∀ i ∈ (a :: b :: c :: d :: rest).head?, v i = start) ↔ v a = start := by
      simp
    have hlast : (∀ i ∈ (a :: b :: c :: d :: rest).getLast?, v i = last) ↔
        v ((d :: rest).getLast (cons_ne_nil _ _)) = last := by
      rw [List.getLast?_eq_some_getLast (cons_ne_nil _ _)]
      simp
    have hsort : (∀ alpha, SortSatisfied alpha v
        (createSortConstraintWithEdges start last (a :: b :: c :: d :: rest) ++ post)) ↔
          (a :: b :: c :: d :: rest).IsChain (Step v) ∧ ∀ alpha, SortSatisfied alpha v post := by
      rw [createSortConstraintWithEdges, cons_append, append_assoc]
      exact hrows
    rw [hsort]
    simp only [hsatisfied]
    constructor
    · rintro ⟨hedges, hchain, hpost⟩
      exact ⟨⟨hchain, hfirst.2 (hedges 0 0).1, hlast.2 (hedges 0 0).2.1⟩,
        fun alpha eta => (hedges alpha eta).2.2, hpost⟩
    · rintro ⟨⟨hchain, hstart, hend⟩, hgates, hpost⟩
      exact ⟨fun alpha eta => ⟨hfirst.1 hstart, hlast.1 hend, hgates alpha eta⟩, hchain, hpost⟩

end Gates

/-! ### Sorted values -/

section Values

variable {v : ℕ → FF}

theorem val_add_delta {x y : FF} {delta : ℕ} (h : y = x + delta)
    (hlt : x.val + delta < Kernel.fieldModulus) : y.val = x.val + delta := by
  have hdelta : (delta : FF).val = delta := ZMod.val_natCast_of_lt (by omega)
  rw [h, ZMod.val_add_of_lt (by rw [hdelta]; exact hlt), hdelta]

variable {indices values : List ℕ} {t : ℕ}

theorem le_of_isChain {x : ℕ} (h : (x :: indices).IsChain (Step v))
    (hlt : (v x).val + 3 * indices.length < Kernel.fieldModulus) :
    ∀ i ∈ x :: indices, (v i).val ≤ (v ((x :: indices).getLast (cons_ne_nil _ _))).val := by
  induction indices generalizing x with
  | nil => simp
  | cons y indices ih =>
    obtain ⟨⟨delta, hdelta, heq⟩, htail⟩ := isChain_cons_cons.1 h
    rw [length_cons] at hlt
    have hval := val_add_delta heq (by omega)
    have hih := ih htail (by omega)
    intro i hi
    rw [getLast_cons_cons]
    rcases mem_cons.1 hi with rfl | hi
    · have := hih y mem_cons_self
      omega
    · exact hih i hi

theorem Sorted.val_le (h : Sorted v 0 t indices) (ht : t < 2 ^ 32)
    (hlength : indices.length ≤ 2 ^ 34) : ∀ i ∈ indices, (v i).val ≤ t := by
  intro i hi
  have hmodulus : 2 ^ 253 < Kernel.fieldModulus := by norm_num [Kernel.fieldModulus]
  cases indices with
  | nil => exact absurd hi not_mem_nil
  | cons x indices =>
    have hfirst : v x = 0 := h.first x rfl
    have hlast : v ((x :: indices).getLast (cons_ne_nil _ _)) = t :=
      h.last _ (List.getLast?_eq_some_getLast _)
    rw [length_cons] at hlength
    have hle := le_of_isChain h.chain (by rw [hfirst, ZMod.val_zero]; omega) i hi
    rw [hlast, ZMod.val_natCast_of_lt (by omega)] at hle
    exact hle

theorem isChain_of_multiples (hsorted : values.Pairwise (· ≤ ·)) (hle : ∀ x ∈ values, x ≤ t)
    (hmultiples : ∀ a ∈ values.head?, ∀ m, a ≤ m → m ≤ t → m % 3 = 0 → m ∈ values) :
    values.IsChain fun a b => a ≤ b ∧ b ≤ a + 3 := by
  induction values with
  | nil => exact isChain_nil
  | cons a values ih =>
    cases values with
    | nil => exact isChain_singleton _
    | cons b values =>
      obtain ⟨hhead, htail⟩ := pairwise_cons.1 hsorted
      have hab := hhead b mem_cons_self
      have hmem := hmultiples a rfl
      refine isChain_cons_cons.2 ⟨⟨hab, ?_⟩, ih htail
        (fun x hx => hle x (mem_cons_of_mem _ hx)) fun b' hb' m hm hmt h3 => ?_⟩
      · -- the next multiple of three is not between the two
        by_contra hgap
        have hbt := hle b (by simp)
        have hnext := hmem ((a / 3 + 1) * 3) (by omega) (by omega) (by omega)
        rcases mem_cons.1 hnext with heq | hnext
        · omega
        · rcases mem_cons.1 hnext with heq | hnext
          · omega
          · have := (pairwise_cons.1 htail).1 _ hnext
            omega
      · obtain rfl : b = b' := by simpa using hb'
        rcases mem_cons.1 (hmem m (by omega) hmt h3) with rfl | hm'
        · have : b = m := by omega
          exact this ▸ mem_cons_self
        · exact hm'

theorem sorted_of_multiples (hvalues : indices.map v = values.map (Nat.cast : ℕ → FF))
    (hsorted : values.Pairwise (· ≤ ·)) (hle : ∀ x ∈ values, x ≤ t)
    (hmultiples : ∀ m, m ≤ t → m % 3 = 0 → m ∈ values) (ht : t ∈ values) :
    Sorted v 0 t indices := by
  have hchain := isChain_of_multiples hsorted hle fun _ _ m _ => hmultiples m
  have hstep : (indices.map v).IsChain fun x y : FF =>
        ∃ delta : ℕ, delta ≤ 3 ∧ y = x + delta := by
    rw [hvalues, isChain_map]
    refine hchain.imp fun a b hab => ⟨b - a, by omega, ?_⟩
    rw [Nat.cast_sub hab.1]
    ring
  refine ⟨(isChain_map v).1 hstep, fun i hi => ?_, fun i hi => ?_⟩
  · have hhead : values.head?.map (Nat.cast : ℕ → FF) = some (v i) := by
      rw [← List.head?_map, ← hvalues, List.head?_map, hi]
      rfl
    obtain ⟨a, ha, hcast⟩ := Option.map_eq_some_iff.1 hhead
    obtain ⟨rest, rfl⟩ := List.head?_eq_some_iff.1 ha
    have hzero : a = 0 := by
      rcases mem_cons.1 (hmultiples 0 (Nat.zero_le _) rfl) with heq | hmem
      · exact heq.symm
      · exact Nat.le_zero.1 ((pairwise_cons.1 hsorted).1 0 hmem)
    rw [← hcast, hzero, Nat.cast_zero]
  · have hlast : values.getLast?.map (Nat.cast : ℕ → FF) = some (v i) := by
      rw [← List.getLast?_map, ← hvalues, List.getLast?_map, hi]
      rfl
    obtain ⟨a, ha, hcast⟩ := Option.map_eq_some_iff.1 hlast
    obtain ⟨init, rfl⟩ := List.getLast?_eq_some_iff.1 ha
    have hat : a ≤ t := hle a (by simp)
    have hta : t ≤ a := by
      rcases mem_append.1 ht with hmem | hmem
      · exact (pairwise_append.1 hsorted).2.2 t hmem a (mem_singleton_self a)
      · exact (mem_singleton.1 hmem).le
    rw [← hcast, le_antisymm hat hta]

end Values

end UltraRange
