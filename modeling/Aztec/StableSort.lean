/-
**What a merge sort asks of its comparison.**

A stable merge sort compares an element only with elements that stood behind it.  A comparison that
is no order at all may therefore still sort a list: it is enough that it agrees with an order on the
pairs of elements in the order of the list.
-/

import Mathlib.Data.List.Basic
import Mathlib.Data.List.Pairwise
import Mathlib.Tactic

namespace StableSort

open List.MergeSort.Internal

variable {α : Type} {le le' : α → α → Bool}

theorem merge_congr {xs ys : List α}
    (h : ∀ x ∈ xs, ∀ y ∈ ys, le x y = le' x y) : xs.merge ys le = xs.merge ys le' := by
  have hmap := List.map_merge (f := id) h
  rwa [List.map_id, List.map_id, List.map_id] at hmap

theorem mergeSort_congr : ∀ {l : List α},
    l.Pairwise (fun a b => le a b = le' a b) → l.mergeSort le = l.mergeSort le'
  | [], _ => by rw [List.mergeSort_nil, List.mergeSort_nil]
  | [a], _ => by rw [List.mergeSort_singleton, List.mergeSort_singleton]
  | a :: b :: l, h => by
    have hsplit := h
    rw [← List.take_append_drop (((a :: b :: l).length + 1) / 2) (a :: b :: l),
      List.pairwise_append] at hsplit
    obtain ⟨hfirst, hsecond, hcross⟩ := hsplit
    simp only [List.mergeSort, splitInTwo_fst, splitInTwo_snd]
    rw [mergeSort_congr hfirst, mergeSort_congr hsecond]
    exact merge_congr fun x hx y hy =>
      hcross x (by simpa using hx) y (by simpa using hy)
  termination_by l => l.length

theorem getElem_foldl_setIfInBounds {n : ℕ} (entries : List (ℕ × ℕ))
    (hnodup : (entries.map Prod.fst).Nodup) (table : Vector ℕ n) {place value : ℕ}
    (hplace : place < n) (hmem : (place, value) ∈ entries) :
    (entries.foldl (fun v entry => v.setIfInBounds entry.1 entry.2) table)[place] = value := by
  induction entries using List.reverseRecOn with
  | nil => exact absurd hmem List.not_mem_nil
  | append_singleton entries entry ih =>
    rw [List.map_append, List.nodup_append] at hnodup
    obtain ⟨hfront, -, hlast⟩ := hnodup
    simp only [List.foldl_append, List.foldl_cons, List.foldl_nil]
    rcases List.mem_append.1 hmem with hmem | hmem
    · have hne : entry.1 ≠ place := fun he =>
        hlast place (List.mem_map_of_mem hmem) entry.1 (by simp) he.symm
      rw [Vector.getElem_setIfInBounds_ne hplace hne]
      exact ih hfront hmem
    · rw [List.mem_singleton] at hmem
      subst hmem
      rw [Vector.getElem_setIfInBounds_self]

end StableSort
