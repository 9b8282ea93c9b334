/-
**Logs sorted by key.**

A log lists events in the order of their times.  In the same log sorted by key and then by time, the
events of a key stand next to each other and in the order of the log.
-/

import Mathlib.Data.List.Chain
import Mathlib.Data.Nat.Basic
import Mathlib.Order.Defs.LinearOrder
import Mathlib.Tactic

open List

namespace SortedLog

section

variable {α κ : Type} [LinearOrder κ] {key : α → κ} {time : α → ℕ}

variable (key) in
def ofKey (log : List α) (k : κ) : List α := log.filter fun x => key x = k

variable (key time) in
def Before (x y : α) : Prop := key x < key y ∨ (key x = key y ∧ time x < time y)

theorem ofKey_append_singleton (log : List α) (x : α) (k : κ) :
    ofKey key (log ++ [x]) k = if key x = k then ofKey key log k ++ [x] else ofKey key log k := by
  rw [ofKey, filter_append, filter_singleton]
  split <;> simp_all [ofKey]

variable {x y : α} {s l : List α} {i : ℕ}

theorem mem_ofKey {log : List α} {k : κ} : x ∈ ofKey key log k ↔ x ∈ log ∧ key x = k := by
  simp [ofKey]

theorem eq_of_perm (hperm : s.Perm l) (hs : s.Pairwise fun x y => time x < time y)
    (hl : l.Pairwise fun x y => time x < time y) : s = l :=
  hperm.eq_of_pairwise (fun x y _ _ hxy hyx => absurd hxy (by omega)) hs hl

theorem ofKey_eq (hperm : s.Perm l) (hs : s.Pairwise (Before key time))
    (hl : l.Pairwise fun x y => time x < time y) (k : κ) : ofKey key s k = ofKey key l k := by
  refine eq_of_perm (hperm.filter _) ?_ (hl.filter _)
  refine (hs.filter fun x => decide (key x = k)).imp_of_mem ?_
  intro x y hx hy hbefore
  have hxk := (mem_ofKey.1 hx).2
  have hyk := (mem_ofKey.1 hy).2
  rcases hbefore with hlt | ⟨-, hlt⟩
  · rw [hxk, hyk] at hlt
    exact absurd hlt (lt_irrefl k)
  · exact hlt

theorem eq_append_of_adjacent (hx : s[i]? = some x) (hy : s[i + 1]? = some y) :
    s = s.take i ++ x :: y :: s.drop (i + 2) := by
  obtain ⟨hi, rfl⟩ := List.getElem?_eq_some_iff.1 hx
  obtain ⟨hi', rfl⟩ := List.getElem?_eq_some_iff.1 hy
  rw [List.getElem_cons_drop hi', List.getElem_cons_drop hi, List.take_append_drop]

theorem rel_of_adjacent {R : α → α → Prop} (hx : s[i]? = some x) (hy : s[i + 1]? = some y)
    (hkey : key x = key y) (hchain : (ofKey key s (key y)).IsChain R) : R x y := by
  rw [eq_append_of_adjacent hx hy, ofKey, filter_append, filter_cons_of_pos (by simp [hkey]),
    filter_cons_of_pos (by simp)] at hchain
  exact isChain_iff_forall_rel_of_append_cons_cons.1 hchain rfl

theorem head_of_take (hy : s[i]? = some y) (h : ∀ x ∈ s.take i, key x ≠ key y) :
    (ofKey key s (key y)).head? = some y := by
  have hsplit : s = s.take i ++ y :: s.drop (i + 1) := by
    obtain ⟨hi, rfl⟩ := List.getElem?_eq_some_iff.1 hy
    rw [List.getElem_cons_drop hi, List.take_append_drop]
  have hnone : (s.take i).filter (fun x => key x = key y) = [] :=
    List.filter_eq_nil_iff.2 fun x hx => by simpa using h x hx
  rw [ofKey, hsplit, List.filter_append, hnone, List.filter_cons_of_pos (by simp)]
  rfl

theorem head_of_first (hs : s.Pairwise (Before key time)) (hx : s[i]? = some x)
    (hy : s[i + 1]? = some y) (hkey : key x ≠ key y) : (ofKey key s (key y)).head? = some y := by
  have hpairs := hs
  rw [eq_append_of_adjacent hx hy, pairwise_append, pairwise_cons] at hpairs
  obtain ⟨-, ⟨hxy, -⟩, hbefore⟩ := hpairs
  have hlt : key x < key y := by
    rcases hxy y mem_cons_self with hlt | ⟨hsame, -⟩
    · exact hlt
    · exact absurd hsame hkey
  refine head_of_take hy fun z hz => ?_
  rw [take_add_one, hx, mem_append] at hz
  rcases hz with hz | hz
  · have hzx : key z ≤ key x := by
      rcases hbefore z hz x mem_cons_self with hlt | ⟨hsame, -⟩
      · exact hlt.le
      · exact hsame.le
    exact (hzx.trans_lt hlt).ne
  · rw [Option.toList_some, mem_singleton] at hz
    rw [hz]
    exact hkey

theorem head_of_head (hy : s[0]? = some y) :
    (ofKey key s (key y)).head? = some y := head_of_take hy (by simp)

end

end SortedLog
