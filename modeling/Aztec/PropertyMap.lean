/-
**Objects with numbers for property names, and ordered maps.**

A JavaScript object whose property names are numbers lists its own properties in an order of its
own: first those that are array indices, in increasing order, then the others in the order of their
creation.  An ordered key-value store finds the entry with the greatest key up to a given one.
-/

import Mathlib.Tactic

open List

/-- An object whose property names are numbers, as the list of its own properties. -/
structure PropertyMap (V : Type) where
  entries : List (ℕ × V)
  nodup : (entries.map Prod.fst).Nodup

namespace PropertyMap

variable {V : Type}

def empty : PropertyMap V := ⟨[], List.nodup_nil⟩

def get (m : PropertyMap V) (i : ℕ) : Option V := (m.entries.find? fun e => e.1 = i).map Prod.snd

def isArrayIndex (i : ℕ) : Bool := i < 2 ^ 32 - 1

def listedBefore (i : ℕ) (e : ℕ × V) : Bool := !isArrayIndex i || (isArrayIndex e.1 && e.1 < i)

/-- The list of properties after a property has been written. -/
def setEntries (entries : List (ℕ × V)) (i : ℕ) (v : V) : List (ℕ × V) :=
  if i ∈ entries.map Prod.fst then entries.map fun e => if e.1 = i then (i, v) else e
  else entries.takeWhile (listedBefore i) ++ (i, v) :: entries.dropWhile (listedBefore i)

variable {entries : List (ℕ × V)} {i k : ℕ} {v : V} {α : Type} {key : α → ℕ} {l : List α}
  {m : ℕ → Option V}

theorem setEntries_of_mem (h : i ∈ entries.map Prod.fst) (v : V) :
    (setEntries entries i v).map Prod.fst = entries.map Prod.fst := by
  rw [setEntries, if_pos h, map_map]
  refine map_congr_left fun e _ => ?_
  simp only [Function.comp_apply]
  split
  · next he => exact he.symm
  · rfl

theorem setEntries_of_notMem (h : i ∉ entries.map Prod.fst) (v : V) :
    (setEntries entries i v).Perm ((i, v) :: entries) := by
  rw [setEntries, if_neg h]
  refine perm_middle.trans (List.Perm.cons _ ?_)
  rw [takeWhile_append_dropWhile]

def set (m : PropertyMap V) (i : ℕ) (v : V) : PropertyMap V where
  entries := setEntries m.entries i v
  nodup := by
    by_cases h : i ∈ m.entries.map Prod.fst
    · rw [setEntries_of_mem h]; exact m.nodup
    · rw [((setEntries_of_notMem h v).map Prod.fst).nodup_iff, List.map_cons, List.nodup_cons]
      exact ⟨h, m.nodup⟩

theorem entries_set (m : PropertyMap V) (i : ℕ) (v : V) :
    (m.set i v).entries = setEntries m.entries i v := rfl

theorem mem_entries_iff {m : PropertyMap V} : (i, v) ∈ m.entries ↔ m.get i = some v := by
  obtain ⟨entries, hnodup⟩ := m
  simp only [get]
  induction entries with
  | nil => simp
  | cons e entries ih =>
    obtain ⟨j, w⟩ := e
    rw [map_cons, nodup_cons] at hnodup
    rw [mem_cons, find?_cons]
    by_cases hij : j = i
    · subst hij
      have hnot : (j, v) ∉ entries := fun hmem => hnodup.1 (mem_map.2 ⟨_, hmem, rfl⟩)
      simp [hnot, eq_comm]
    · simp [hij, Ne.symm hij, ih hnodup.2]

@[simp] theorem get_empty (i : ℕ) : (empty : PropertyMap V).get i = none := rfl

theorem get_set (m : PropertyMap V) (i : ℕ) (v : V) (j : ℕ) :
    (m.set i v).get j = if j = i then some v else m.get j := by
  have hmem : ∀ w, (j, w) ∈ (m.set i v).entries ↔
      (j = i ∧ w = v) ∨ (j ≠ i ∧ (j, w) ∈ m.entries) := by
    intro w
    by_cases h : i ∈ m.entries.map Prod.fst
    · rw [entries_set, setEntries, if_pos h]
      simp only [mem_map]
      constructor
      · rintro ⟨e, he, heq⟩
        split at heq
        · exact .inl ⟨(Prod.mk.inj heq).1.symm, (Prod.mk.inj heq).2.symm⟩
        · next hne => subst heq; exact .inr ⟨hne, he⟩
      · rintro (⟨rfl, rfl⟩ | ⟨hne, he⟩)
        · obtain ⟨e, he, rfl⟩ := mem_map.1 h
          exact ⟨e, he, by simp⟩
        · exact ⟨_, he, by simp [hne]⟩
    · rw [entries_set, (setEntries_of_notMem h v).mem_iff, mem_cons, Prod.mk.injEq]
      refine or_congr_right ⟨fun he => ⟨?_, he⟩, And.right⟩
      rintro rfl
      exact h (mem_map.2 ⟨_, he, rfl⟩)
  refine Option.ext fun w => ?_
  rw [← mem_entries_iff, hmem]
  split
  · next h => simp [h, eq_comm]
  · next h => simp [h, mem_entries_iff]

/-! ### Searches -/

def greatest {α : Type} (key : α → ℕ) (l : List α) : Option α :=
  (l.insertionSort fun a b => key b ≤ key a).head?

theorem greatest_eq_some {a : α} (h : greatest key l = some a) :
    a ∈ l ∧ ∀ b ∈ l, key b ≤ key a := by
  obtain ⟨rest, hsorted⟩ := head?_eq_some_iff.1 h
  have hperm := perm_insertionSort (fun a b => key b ≤ key a) l
  have hpair : (l.insertionSort fun a b => key b ≤ key a).Pairwise fun a b => key b ≤ key a :=
    pairwise_insertionSort _ _
  rw [hsorted] at hperm hpair
  refine ⟨hperm.mem_iff.1 mem_cons_self, fun b hb => ?_⟩
  rcases mem_cons.1 (hperm.mem_iff.2 hb) with rfl | hb
  · exact le_rfl
  · exact (pairwise_cons.1 hpair).1 b hb

theorem greatest_eq_none (h : greatest key l = none) : l = [] := by
  have hperm := perm_insertionSort (fun a b => key b ≤ key a) l
  rw [head?_eq_none_iff.1 h] at hperm
  exact hperm.nil_eq.symm

/-- The value of an ordered store at the greatest key up to `k`. -/
def lastUpTo (m : ℕ → Option V) : ℕ → Option V
  | 0 => m 0
  | k + 1 => (m (k + 1)).or (lastUpTo m k)

theorem lastUpTo_eq_some (h : lastUpTo m k = some v) :
    ∃ k' ≤ k, m k' = some v ∧ ∀ k'' ≤ k, (m k'').isSome → k'' ≤ k' := by
  induction k with
  | zero => exact ⟨0, le_rfl, h, fun _ hk _ => hk⟩
  | succ k ih =>
    rw [lastUpTo] at h
    cases hm : m (k + 1) with
    | some w =>
      rw [hm] at h
      exact ⟨k + 1, le_rfl, hm.trans h, fun _ hk _ => hk⟩
    | none =>
      rw [hm] at h
      obtain ⟨k', hk', hv, hmax⟩ := ih h
      refine ⟨k', hk'.trans k.le_succ, hv, fun k'' hk'' hsome => ?_⟩
      rcases Nat.le_succ_iff.1 hk'' with hle | rfl
      · exact hmax k'' hle hsome
      · simp [hm] at hsome

theorem lastUpTo_isSome {k' : ℕ} (hk : k' ≤ k) (h : (m k').isSome) : (lastUpTo m k).isSome := by
  induction k with
  | zero => obtain rfl := Nat.le_zero.1 hk; exact h
  | succ k ih =>
    rw [lastUpTo, Option.isSome_or]
    rcases Nat.le_succ_iff.1 hk with hle | rfl
    · simp [ih hle]
    · simp [h]

end PropertyMap
