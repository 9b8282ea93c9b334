/-
**Maps in the order of insertion, and counted items.**

A map lists its entries in the order in which their keys were first written.  Maps from items to
counts stand for multisets of items: the list of copies holds every item as often as it is counted.
Sorting by an attribute is stable, so that items with the same attribute stay in their order.
-/

import Mathlib.Data.List.Sort
import Mathlib.Data.List.Count
import Mathlib.Data.List.Nodup

structure InsertionMap (K V : Type) where
  entries : List (K × V)
  nodup : (entries.map Prod.fst).Nodup

open List

namespace InsertionMap

variable {K V : Type}

def empty : InsertionMap K V := ⟨[], nodup_nil⟩

section Access

variable [DecidableEq K]

def get (m : InsertionMap K V) (k : K) : Option V := (m.entries.find? fun e => e.1 = k).map Prod.snd

/-- The entries after one has been written: in its place, or at the end. -/
def setEntries (entries : List (K × V)) (k : K) (v : V) : List (K × V) :=
  if k ∈ entries.map Prod.fst then entries.map fun e => if e.1 = k then (k, v) else e
  else entries ++ [(k, v)]

theorem keys_setEntries (entries : List (K × V)) (k : K) (v : V) :
    (setEntries entries k v).map Prod.fst =
      if k ∈ entries.map Prod.fst then entries.map Prod.fst else entries.map Prod.fst ++ [k] := by
  unfold setEntries
  split
  · rw [List.map_map]
    refine map_congr_left fun e _ => ?_
    by_cases he : e.1 = k
    · simp [he]
    · simp [he]
  · simp

def set (m : InsertionMap K V) (k : K) (v : V) : InsertionMap K V where
  entries := setEntries m.entries k v
  nodup := by
    rw [keys_setEntries]
    split
    · exact m.nodup
    · next h => exact nodup_append.2 ⟨m.nodup, nodup_singleton k, by
        intro a ha b hb
        rw [mem_singleton.1 hb]
        exact fun he => h (he ▸ ha)⟩

def delete (m : InsertionMap K V) (k : K) : InsertionMap K V where
  entries := m.entries.filter fun e => e.1 ≠ k
  nodup := m.nodup.sublist (filter_sublist.map Prod.fst)

@[simp] theorem get_empty (k : K) : (empty : InsertionMap K V).get k = none := rfl

theorem mem_entries_iff {m : InsertionMap K V} {k : K} {v : V} :
    (k, v) ∈ m.entries ↔ m.get k = some v := by
  obtain ⟨entries, hnodup⟩ := m
  simp only [get]
  induction entries with
  | nil => simp
  | cons e entries ih =>
    obtain ⟨j, w⟩ := e
    rw [map_cons, nodup_cons] at hnodup
    rw [mem_cons, List.find?_cons]
    by_cases hjk : j = k
    · subst hjk
      have hnot : (j, v) ∉ entries := fun hmem => hnodup.1 (mem_map.2 ⟨_, hmem, rfl⟩)
      simp [hnot, eq_comm]
    · simp [hjk, Ne.symm hjk, ih hnodup.2]

theorem get_set (m : InsertionMap K V) (k : K) (v : V) (j : K) :
    (m.set k v).get j = if j = k then some v else m.get j := by
  have hmem : ∀ w, (j, w) ∈ (m.set k v).entries ↔ j = k ∧ w = v ∨ j ≠ k ∧ (j, w) ∈ m.entries := by
    intro w
    change (j, w) ∈ setEntries m.entries k v ↔ _
    unfold setEntries
    split
    · next h =>
        rw [mem_map]
        constructor
        · rintro ⟨e, he, heq⟩
          by_cases hek : e.1 = k
          · rw [if_pos hek] at heq
            exact .inl ⟨(Prod.mk.inj heq).1.symm, (Prod.mk.inj heq).2.symm⟩
          · rw [if_neg hek] at heq
            subst heq
            exact .inr ⟨hek, he⟩
        · rintro (⟨rfl, rfl⟩ | ⟨hne, he⟩)
          · obtain ⟨e, he, rfl⟩ := mem_map.1 h
            exact ⟨e, he, by simp⟩
          · exact ⟨_, he, by simp [hne]⟩
    · next h =>
        rw [mem_append, mem_singleton, Prod.mk.injEq, or_comm]
        refine or_congr_right ⟨fun he => ⟨?_, he⟩, And.right⟩
        rintro rfl
        exact h (mem_map.2 ⟨_, he, rfl⟩)
  refine Option.ext fun w => ?_
  rw [← mem_entries_iff, hmem]
  split
  · next h => simp [h, eq_comm]
  · next h => simp [h, mem_entries_iff]

theorem get_delete (m : InsertionMap K V) (k j : K) :
    (m.delete k).get j = if j = k then none else m.get j := by
  refine Option.ext fun w => ?_
  rw [← mem_entries_iff]
  change (j, w) ∈ m.entries.filter (fun e => e.1 ≠ k) ↔ _
  rw [mem_filter, mem_entries_iff, decide_eq_true_eq]
  split
  · next h => simp [h]
  · next h => simp [h]

end Access

/-! ### Copies -/

def copies (entries : List (K × ℕ)) : List K := entries.flatMap fun e => List.replicate e.2 e.1

@[simp] theorem copies_nil : copies ([] : List (K × ℕ)) = [] := rfl

@[simp] theorem copies_cons (e : K × ℕ) (entries : List (K × ℕ)) :
    copies (e :: entries) = List.replicate e.2 e.1 ++ copies entries := rfl

variable {entries : List (K × ℕ)} {k : K}

theorem count_copies [DecidableEq K] (hnodup : (entries.map Prod.fst).Nodup) {c : ℕ}
    (h : (k, c) ∈ entries) : (copies entries).count k = c := by
  induction entries with
  | nil => exact absurd h not_mem_nil
  | cons e entries ih =>
    rw [map_cons, nodup_cons] at hnodup
    rw [copies_cons, count_append, count_replicate]
    rcases mem_cons.1 h with rfl | h
    · have hnot : k ∉ copies entries := by
        intro hk
        obtain ⟨f, hf, hk⟩ := mem_flatMap.1 hk
        exact hnodup.1 (mem_map.2 ⟨f, hf, (mem_replicate.1 hk).2.symm⟩)
      simp [count_eq_zero_of_not_mem hnot]
    · have hne : e.1 ≠ k := fun he => hnodup.1 (he ▸ mem_map_of_mem h)
      simp [hne, ih hnodup.2 h]

theorem mem_copies (h : k ∈ copies entries) : ∃ c, (k, c) ∈ entries := by
  obtain ⟨e, he, hk⟩ := mem_flatMap.1 h
  exact ⟨e.2, (mem_replicate.1 hk).2 ▸ he⟩

/-! ### Stable sorting -/

section Sorting

variable {α : Type} (r s : α → α → Prop) [DecidableRel r] [DecidableRel s]

theorem orderedInsert_congr {a : α} {l : List α} (h : ∀ b ∈ l, r a b ↔ s a b) :
    l.orderedInsert r a = l.orderedInsert s a := by
  induction l with
  | nil => rfl
  | cons b l ih =>
    rw [List.orderedInsert, List.orderedInsert, ih fun c hc => h c (mem_cons_of_mem _ hc)]
    simp only [h b mem_cons_self]

theorem insertionSort_congr {l : List α} (h : l.Pairwise fun a b => r a b ↔ s a b) :
    l.insertionSort r = l.insertionSort s := by
  induction l with
  | nil => rfl
  | cons a l ih =>
    obtain ⟨ha, hl⟩ := pairwise_cons.1 h
    rw [insertionSort_cons, insertionSort_cons, ih hl]
    refine orderedInsert_congr r s fun b hb => ?_
    exact ha b ((mem_insertionSort s).1 hb)

end Sorting

end InsertionMap
