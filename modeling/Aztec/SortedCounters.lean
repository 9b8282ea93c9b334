/-
**The reordering check of the private kernel tail.**

The tail circuit is handed a sorted copy of the note hashes (and of the nullifiers) together with
the positions at which the original items are found in it, both chosen by the prover.
`assert_sorted_counters` compares the original with the copy *through the positions* up to and
including the first empty item, and *place by place* after it.  The place of the first empty item
is therefore never looked at in the copy, unless some position points there.
-/

import Aztec.KernelTypes

namespace Kernel

open Noir Failing

variable {T : Type} [DecidableEq T] [Empty T] {n : ℕ}

/-! ### The check -/

/-- The flag `prev_was_empty` at the turn for place `i`. -/
def prevWasEmpty (original : Vector T n) : ℕ → Bool
  | 0 => false
  | i + 1 => (original[i]?).any isEmpty

theorem prevWasEmpty_eq_false {original : Vector T n} {i : ℕ} (hi : i < n)
    (h : i ≤ arrayLength original) : prevWasEmpty original i = false := by
  cases i with
  | zero => rfl
  | succ i =>
    have := ne_empty_of_lt_arrayLength (by omega : i < n) h
    simpa [prevWasEmpty, isEmpty, (by omega : i < n)] using this

theorem prevWasEmpty_eq_true {original : Vector T n}
    (hlast : EmptyLast original) {i : ℕ} (hi : i < n) (h : arrayLength original < i) :
    prevWasEmpty original i = true := by
  cases i with
  | zero => cases h
  | succ i =>
    have := eq_empty_of_arrayLength_le hlast (by omega : i < n) (by omega)
    simpa [prevWasEmpty, isEmpty, (by omega : i < n)] using this

theorem toList_eq_ofFn {S : Type} (items : Vector S n) :
    items.toList = List.ofFn fun i : Fin n => getElem items i i.isLt :=
  List.ext_getElem (by simp) fun i h₁ h₂ => by simp

variable [Ordered T]

/-- The assertions on a turn's item: empty after an empty one, in increasing order otherwise. -/
def assertItemOrder (sorted : Vector T n) (prevWasEmpty : Bool) (i : ℕ) (item : T) :
    Circuit Unit :=
  if prevWasEmpty then assert (isEmpty item) "Empty items must be at the end"
  else if i ≠ 0 ∧ isEmpty item = false then do
    let current ← get sorted i
    let previous ← get sorted (i - 1)
    assert (Ordered.counter current > Ordered.counter previous) "Not sorted"
  else return ()

/-- One turn of the loop, with the flag `prev_was_empty`; the result is the flag of the next. -/
def assertSortedCountersStep (original sorted : Vector T n) (indexes : Vector ℕ n)
    (prevWasEmpty : Bool) (i : ℕ) : Circuit Bool := do
  let index ← (if prevWasEmpty then return i else get indexes i)
  let item ← get sorted index
  let originalItem ← get original i
  assert (item = originalItem) "Sorted item is not equal"
  assertItemOrder sorted prevWasEmpty i item
  return isEmpty item

def assertSortedCounters (original sorted : Vector T n) (indexes : Vector ℕ n) : Circuit Unit := do
  let _ ← (List.range n).foldlM (assertSortedCountersStep original sorted indexes) false
  return ()

/-! ### What the check ensures, place by place -/

/-- What the turn for place `i` checks. -/
structure CheckedAt (original sorted : Vector T n) (indexes : Vector ℕ n) (i : ℕ) (hi : i < n) :
    Prop where
  /-- Before an empty item the original is found through the positions … -/
  indexed : prevWasEmpty original i = false → sorted[indexes[i]]? = some original[i]
  /-- … and after one at its own place. -/
  positional : prevWasEmpty original i = true →
    sorted[i] = original[i] ∧ original[i] = Empty.empty
  counters : prevWasEmpty original i = false → i ≠ 0 → original[i] ≠ Empty.empty →
    Ordered.counter sorted[i - 1] < Ordered.counter sorted[i]

theorem assertItemOrder_eq_ok_iff {sorted : Vector T n} {b : Bool} {i : ℕ} (hi : i < n)
    {item : T} {u : Unit} : assertItemOrder sorted b i item = .ok u ↔
      (b = true → item = Empty.empty) ∧ (b = false → i ≠ 0 → item ≠ Empty.empty →
          Ordered.counter sorted[i - 1] < Ordered.counter sorted[i]) := by
  have hcurrent : get sorted i = .ok sorted[i] := by simp [hi]
  have hprevious : get sorted (i - 1) = .ok sorted[i - 1] := by simp
  cases b with
  | true => simp [assertItemOrder]
  | false =>
    rw [assertItemOrder, if_neg Bool.false_ne_true, hcurrent, hprevious]
    split
    · next h =>
      simp only [isEmpty, decide_eq_false_iff_not] at h
      simp [bind, Except.bind, h]
    · next h =>
      simp only [isEmpty, decide_eq_false_iff_not, not_and_or, not_not] at h
      rcases h with rfl | rfl <;> simp [pure, Except.pure]

section

variable {original sorted : Vector T n} {indexes : Vector ℕ n}

theorem assertSortedCountersStep_eq_ok_iff {i : ℕ} (hi : i < n) {b : Bool} :
    assertSortedCountersStep original sorted indexes (prevWasEmpty original i) i = .ok b ↔
      CheckedAt original sorted indexes i hi ∧ b = prevWasEmpty original (i + 1) := by
  have hnext : prevWasEmpty original (i + 1) = isEmpty original[i] := by
    simp [prevWasEmpty, hi]
  have horig : get original i = .ok original[i] := by simp [hi]
  rw [hnext]
  simp only [assertSortedCountersStep, bind_eq_ok, get_eq_ok, assert_eq_ok, horig,
    assertItemOrder_eq_ok_iff hi, decide_eq_true_eq, pure, Except.pure, Except.ok.injEq]
  cases hprev : prevWasEmpty original i with
  | true =>
    constructor
    · rintro ⟨index, hindex, item, hitem, _, rfl, -, rfl, -, ⟨hempty, -⟩, rfl⟩
      simp only [if_true, Except.ok.injEq] at hindex
      subst hindex
      simp only [Vector.getElem?_eq_getElem hi, Option.some.injEq] at hitem
      exact ⟨⟨by simp [hprev], fun _ => ⟨hitem, hempty rfl⟩, by simp [hprev]⟩, rfl⟩
    · rintro ⟨⟨-, hpos, -⟩, rfl⟩
      obtain ⟨hitem, hempty⟩ := hpos hprev
      exact ⟨i, by simp, original[i], by simp [hi, hitem], original[i], rfl, (), rfl, (),
        ⟨fun _ => hempty, by simp⟩, rfl⟩
  | false =>
    constructor
    · rintro ⟨index, hindex, item, hitem, _, rfl, -, rfl, -, ⟨-, horder⟩, rfl⟩
      simp only [Bool.false_eq_true, if_false, get_eq_ok, Vector.getElem?_eq_getElem hi,
        Option.some.injEq] at hindex
      subst hindex
      exact ⟨⟨fun _ => hitem, by simp [hprev], fun _ => horder rfl⟩, rfl⟩
    · rintro ⟨⟨hidx, -, horder⟩, rfl⟩
      exact ⟨indexes[i], by simp [hi], original[i], hidx hprev, original[i], rfl, (), rfl, (),
        ⟨by simp, fun _ => horder hprev⟩, rfl⟩

theorem foldlM_assertSortedCountersStep : ∀ k ≤ n, ∀ b,
      (List.range k).foldlM (assertSortedCountersStep original sorted indexes) false = .ok b ↔
        (∀ i (hi : i < n), i < k → CheckedAt original sorted indexes i hi) ∧
          b = prevWasEmpty original k := by
  intro k
  induction k with
  | zero => intro _ b; simp [prevWasEmpty, pure, Except.pure, eq_comm]
  | succ k ih =>
    intro hk b
    rw [List.range_succ, List.foldlM_append, bind_eq_ok]
    simp only [List.foldlM_cons, List.foldlM_nil, bind_pure]
    constructor
    · rintro ⟨b', hb', hstep⟩
      obtain ⟨hchecked, rfl⟩ := (ih (by omega) b').1 hb'
      obtain ⟨hlast, rfl⟩ := (assertSortedCountersStep_eq_ok_iff (by omega)).1 hstep
      refine ⟨fun i hi hik => ?_, rfl⟩
      rcases Nat.lt_succ_iff_lt_or_eq.1 hik with h | rfl
      · exact hchecked i hi h
      · exact hlast
    · rintro ⟨hchecked, rfl⟩
      exact ⟨prevWasEmpty original k,
        (ih (by omega) _).2 ⟨fun i hi hik => hchecked i hi (by omega), rfl⟩,
        (assertSortedCountersStep_eq_ok_iff (by omega)).2 ⟨hchecked k (by omega) (by omega), rfl⟩⟩

theorem assertSortedCounters_eq_ok_iff : assertSortedCounters original sorted indexes = .ok () ↔
      ∀ i (hi : i < n), CheckedAt original sorted indexes i hi := by
  rw [assertSortedCounters, bind_eq_ok]
  constructor
  · rintro ⟨b, hb, -⟩
    exact fun i hi => ((foldlM_assertSortedCountersStep n le_rfl b).1 hb).1 i hi hi
  · intro hchecked
    exact ⟨_, (foldlM_assertSortedCountersStep n le_rfl _).2
      ⟨fun i hi _ => hchecked i hi, rfl⟩, rfl⟩

end

/-! ### What the check is there to ensure -/

/-- The first `k` items are not empty and have strictly increasing counters, and the others are
empty. -/
structure IncreasingThenEmpty (items : Vector T n) (k : ℕ) : Prop where
  ne_empty : ∀ i (hi : i < n), i < k → items[i] ≠ Empty.empty
  eq_empty : ∀ i (hi : i < n), k ≤ i → items[i] = Empty.empty
  increasing : ∀ i j (hij : i < j) (hj : j < n), j < k →
    Ordered.counter items[i] < Ordered.counter items[j]

/-- The non-empty items of an array are pairwise different. -/
def NonEmptyDistinct (items : Vector T n) : Prop :=
  ∀ i j : Fin n, getElem items i i.isLt ≠ Empty.empty →
    getElem items i i.isLt = getElem items j j.isLt → i = j

instance (items : Vector T n) : Decidable (NonEmptyDistinct items) :=
  inferInstanceAs (Decidable (∀ i j : Fin n, getElem items i i.isLt ≠ Empty.empty →
    getElem items i i.isLt = getElem items j j.isLt → i = j))

/-- `sorted` is a permutation of `original` with the non-empty items first, in strictly increasing
order of their counters. -/
def Reordered (original sorted : Vector T n) : Prop :=
  sorted.toList.Perm original.toList ∧ ∃ k ≤ n, IncreasingThenEmpty sorted k

section Accepted

variable {original sorted : Vector T n} {indexes : Vector ℕ n}
  (hlast : EmptyLast original)
include hlast in
theorem eq_empty_of_reordered (h : Reordered original sorted) (hlt : arrayLength original < n) :
    sorted[arrayLength original] = Empty.empty := by
  obtain ⟨hperm, k, hk, hinc⟩ := h
  have hsorted := countP_of_boundary hk hinc.ne_empty hinc.eq_empty
  have horiginal := countP_of_boundary (arrayLength_le original)
    (fun i hi => ne_empty_of_lt_arrayLength hi)
    (fun i hi => eq_empty_of_arrayLength_le hlast hi)
  rw [hperm.countP_eq, horiginal] at hsorted
  exact hinc.eq_empty _ hlt hsorted.ge

variable (hok : assertSortedCounters original sorted indexes = .ok ())
include hlast hok in
theorem sorted_eq_empty
    (hfree : ∀ h : arrayLength original < n, sorted[arrayLength original] = Empty.empty) {i : ℕ}
    (hi : i < n) (h : arrayLength original ≤ i) : sorted[i] = Empty.empty := by
  rcases Nat.lt_or_ge (arrayLength original) i with hlt | hge
  · obtain ⟨hitem, hempty⟩ := (assertSortedCounters_eq_ok_iff.1 hok i hi).positional
      (prevWasEmpty_eq_true hlast hi hlt)
    rw [hitem, hempty]
  · obtain rfl : i = arrayLength original := by omega
    exact hfree hi

include hok in
theorem indexes_lt {i : ℕ} (hi : i < n) (h : i < arrayLength original) :
    ∃ hlt : indexes[i] < n, sorted[indexes[i]] = original[i] := by
  have hget := (assertSortedCounters_eq_ok_iff.1 hok i hi).indexed (prevWasEmpty_eq_false hi h.le)
  obtain ⟨hlt, hitem⟩ := Vector.getElem?_eq_some_iff.1 hget
  exact ⟨hlt, hitem⟩

include hok in
theorem counter_lt {i j : ℕ} (hij : i < j) (hj : j < n) (hk : j < arrayLength original) :
    Ordered.counter sorted[i] < Ordered.counter sorted[j] := by
  induction j with
  | zero => cases hij
  | succ j ih =>
    have hstep := (assertSortedCounters_eq_ok_iff.1 hok (j + 1) hj).counters
      (prevWasEmpty_eq_false hj hk.le) (Nat.succ_ne_zero j) (ne_empty_of_lt_arrayLength hj hk)
    rcases Nat.lt_succ_iff_lt_or_eq.1 hij with h | rfl
    · exact (ih h (by omega) (by omega)).trans hstep
    · exact hstep

include hlast hok in
theorem exists_perm (hdistinct : NonEmptyDistinct original)
    (hfree : ∀ h : arrayLength original < n, sorted[arrayLength original] = Empty.empty) :
    ∃ σ : Equiv.Perm (Fin n), (∀ i : Fin n,
      getElem original i i.isLt = getElem sorted (σ i) (σ i).isLt) ∧
      ∀ i : Fin n, arrayLength original ≤ i → σ i = i := by
  let f : Fin n → Fin n := fun i =>
    if h : i.1 < arrayLength original then ⟨indexes[i.1], (indexes_lt hok i.2 h).1⟩ else i
  have hf : ∀ i : Fin n, original[i] = sorted[f i] := by
    intro i
    by_cases h : i.1 < arrayLength original
    · simpa [f, h] using (indexes_lt hok i.2 h).2.symm
    · have hle := Nat.le_of_not_lt h
      simpa [f, h] using (eq_empty_of_arrayLength_le hlast i.2 hle).trans
        (sorted_eq_empty hlast hok hfree i.2 hle).symm
  have hinj : Function.Injective f := by
    intro i j hij
    have heq : original[i] = original[j] :=
      (hf i).trans ((congrArg (fun k : Fin n => sorted[k]) hij).trans (hf j).symm)
    by_cases hi : i.1 < arrayLength original
    · exact hdistinct i j (ne_empty_of_lt_arrayLength i.2 hi) heq
    · by_cases hj : j.1 < arrayLength original
      · exact (hdistinct j i (ne_empty_of_lt_arrayLength j.2 hj) heq.symm).symm
      · simpa [f, hi, hj] using hij
  refine ⟨Equiv.ofBijective f (Finite.injective_iff_bijective.1 hinj), hf, fun i hi => ?_⟩
  simp [f, Nat.not_lt.2 hi]

include hlast hok in
/-- **The reordering check.**  An accepted copy of an original whose non-empty items come first
and are pairwise different is a reordering of it exactly when the copy is empty at the first empty
place of the original. -/
theorem reordered_iff_of_assertSortedCounters (hdistinct : NonEmptyDistinct original) :
    Reordered original sorted ↔
      ∀ h : arrayLength original < n, sorted[arrayLength original] = Empty.empty := by
  refine ⟨fun h => eq_empty_of_reordered hlast h, fun hfree => ?_⟩
  obtain ⟨σ, hσ, hfix⟩ := exists_perm hlast hok hdistinct hfree
  refine ⟨?_, arrayLength original, arrayLength_le original, ?_, ?_, ?_⟩
  · have hperm := Equiv.Perm.ofFn_comp_perm σ fun i : Fin n => sorted[i]
    have hcomp : (fun i : Fin n => sorted[i]) ∘ σ = fun i : Fin n => original[i] :=
      funext fun i => (hσ i).symm
    rw [hcomp, ← toList_eq_ofFn, ← toList_eq_ofFn] at hperm
    exact hperm.symm
  · intro i hi hlt
    obtain ⟨j, hj⟩ := σ.surjective ⟨i, hi⟩
    have hjlt : j.1 < arrayLength original := by
      by_contra hge
      rw [hfix j (Nat.le_of_not_lt hge)] at hj
      subst hj
      exact hge hlt
    have hitem : sorted[i] = original[j] :=
      ((hσ j).trans (congrArg (fun k : Fin n => sorted[k]) hj)).symm
    rw [hitem]
    exact ne_empty_of_lt_arrayLength j.2 hjlt
  · exact fun i hi hle => sorted_eq_empty hlast hok hfree hi hle
  · exact fun i j hij hj hlt => counter_lt hok hij hj hlt

end Accepted

/-- The theorem at two note hashes that change places. -/
theorem reordered_two : Reordered (#v[⟨5, 2⟩, ⟨7, 1⟩, ⟨0, 0⟩] : Vector SideEffect 3)
      #v[⟨7, 1⟩, ⟨5, 2⟩, ⟨0, 0⟩] :=
  (reordered_iff_of_assertSortedCounters (by decide)
    (by decide : assertSortedCounters (#v[⟨5, 2⟩, ⟨7, 1⟩, ⟨0, 0⟩] : Vector SideEffect 3)
      #v[⟨7, 1⟩, ⟨5, 2⟩, ⟨0, 0⟩] #v[1, 0, 2] = .ok ()) (by decide)).2 (by decide)

/-- **An injected note hash passes the check**: the copy holds `⟨9, 9⟩`, which the original does
not, at the place of the first empty item, whose position points elsewhere. -/
theorem not_reordered_of_assertSortedCounters :
    ¬∀ (n : ℕ) (original sorted : Vector SideEffect n) (indexes : Vector ℕ n),
      EmptyLast original → NonEmptyDistinct original →
      assertSortedCounters original sorted indexes = .ok () → Reordered original sorted := by
  intro h
  obtain ⟨hperm, -⟩ := h 3 #v[⟨5, 1⟩, ⟨0, 0⟩, ⟨0, 0⟩] #v[⟨5, 1⟩, ⟨9, 9⟩, ⟨0, 0⟩] #v[0, 2, 0]
    (by decide) (by decide) (by decide)
  exact absurd hperm (by decide)

end Kernel
