/-
**Reading a list page by page.**

A reader that collects the items of a list until its page is full, and goes on from the last item
it returned, is described by the list of the items it visits: what it returns is the beginning of
that list, and its flag says whether the page was filled.  When the items are strictly ordered, the
items after the last one of a page are the list without that page.
-/

import Mathlib.Data.List.Basic
import Mathlib.Data.List.Range
import Mathlib.Tactic.Ring

open List

namespace Paging

variable {α : Type}

/-! ### Filling a page -/

/-- Items are appended to the results one by one until there are `p` of them; the flag says that
this happened. -/
def fill (p : ℕ) : List α → List α → List α × Bool
  | results, [] => (results, false)
  | results, item :: items =>
    if p ≤ (results ++ [item]).length then (results ++ [item], true)
    else fill p (results ++ [item]) items

@[simp] theorem fill_nil (p : ℕ) (results : List α) : fill p results [] = (results, false) := rfl

theorem fill_append (p : ℕ) (xs ys : List α) : ∀ results : List α, fill p results (xs ++ ys) =
      if (fill p results xs).2 then fill p results xs else fill p (fill p results xs).1 ys := by
  induction xs with
  | nil => intro results; simp
  | cons x xs ih =>
    intro results
    by_cases h : p ≤ (results ++ [x]).length
    · simp only [cons_append, fill, if_pos h, if_true]
    · simp only [cons_append, fill, if_neg h]
      exact ih _

theorem fill_eq (p : ℕ) (items : List α) : ∀ results : List α, results.length < p →
    fill p results items = (results ++ items.take (p - results.length),
        decide (p ≤ results.length + items.length)) := by
  induction items with
  | nil =>
    intro results hlt
    simpa [fill] using hlt
  | cons x xs ih =>
    intro results hlt
    by_cases h : p ≤ (results ++ [x]).length
    · rw [fill, if_pos h]
      simp only [length_append, length_singleton] at h
      have h1 : p - results.length = 1 := by omega
      have h2 : p ≤ results.length + (xs.length + 1) := by omega
      simp [h1, h2]
    · rw [fill, if_neg h, ih _ (by omega)]
      simp only [length_append, length_singleton, not_le] at h
      have h1 : p - results.length = p - (results.length + 1) + 1 := by omega
      rw [length_append, length_singleton, h1, take_succ_cons]
      simp only [append_assoc, singleton_append, length_cons, Prod.mk.injEq,
        true_and, decide_eq_decide]
      omega

variable {p i : ℕ} {items xs : List α} {ok lt : α → α → Prop} {a x : α} {keep : α → Bool}

theorem fill_nil_eq (hp : 1 ≤ p) (items : List α) :
    fill p [] items = (items.take p, decide (p ≤ items.length)) := by
  rw [fill_eq p items [] (Nat.lt_of_lt_of_le Nat.zero_lt_one hp)]
  simp

/-! ### The pages of a list -/

/-- The pages of a list: full pages, and a last one that is not full.  The number of steps bounds
the number of pages. -/
def pagesOf (p : ℕ) : ℕ → List α → Option (List (List α))
  | 0, _ => none
  | fuel + 1, items =>
    if p ≤ items.length then (pagesOf p fuel (items.drop p)).map (items.take p :: ·)
    else some [items]

theorem flatten_pagesOf : ∀ (fuel : ℕ) {items : List α} {pages : List (List α)},
    pagesOf p fuel items = some pages → pages.flatten = items := by
  intro fuel
  induction fuel with
  | zero => intro items pages h; simp [pagesOf] at h
  | succ fuel ih =>
    intro items pages h
    by_cases hle : p ≤ items.length
    · rw [pagesOf, if_pos hle, Option.map_eq_some_iff] at h
      obtain ⟨rest, hrest, rfl⟩ := h
      rw [flatten_cons, ih hrest, take_append_drop]
    · rw [pagesOf, if_neg hle, Option.some.injEq] at h
      subst h
      simp

theorem pagesOf_ne_nil {fuel : ℕ} : pagesOf p fuel items ≠ some [] := by
  cases fuel with
  | zero => simp [pagesOf]
  | succ fuel =>
    rw [pagesOf]
    split
    · simp
    · simp

theorem exists_pagesOf (hp : 1 ≤ p) : ∀ (fuel : ℕ) {items : List α},
    items.length < fuel → ∃ pages, pagesOf p fuel items = some pages := by
  intro fuel
  induction fuel with
  | zero => intro items h; omega
  | succ fuel ih =>
    intro items h
    by_cases hle : p ≤ items.length
    · obtain ⟨rest, hrest⟩ := @ih (items.drop p) (by rw [length_drop]; omega)
      exact ⟨items.take p :: rest, by rw [pagesOf, if_pos hle, hrest, Option.map_some]⟩
    · exact ⟨[items], by rw [pagesOf, if_neg hle]⟩

/-! ### Going on after a page -/

/-- The items at the end of the full pages are related to each item of the page that follows. -/
def Resumable (p : ℕ) (ok : α → α → Prop) (items : List α) : Prop :=
  ∀ i j a e, p ∣ i + 1 → i < j → j ≤ i + p → items[i]? = some a → items[j]? = some e → ok a e

theorem resumable_of_length_lt (h : items.length < p) : Resumable p ok items := by
  intro i j a e hdvd hlt _ ha _
  have hi : i < items.length := (List.getElem?_eq_some_iff.1 ha).1
  have := Nat.le_of_dvd (by omega) hdvd
  omega

theorem resumable_iff (hp : 1 ≤ p) (ha : items[p - 1]? = some a) : Resumable p ok items ↔
      (∀ e ∈ (items.drop p).take p, ok a e) ∧ Resumable p ok (items.drop p) := by
  constructor
  · intro h
    refine ⟨fun e he => ?_, fun i j a' e hdvd hlt hle ha' he => ?_⟩
    · obtain ⟨k, hk, rfl⟩ := getElem_of_mem he
      rw [length_take, length_drop] at hk
      refine h (p - 1) (p + k) a _ (by rw [Nat.sub_add_cancel hp]) (by omega) (by omega) ha ?_
      rw [getElem_take, getElem_drop, List.getElem?_eq_getElem (by omega)]
    · rw [List.getElem?_drop] at ha' he
      exact h (p + i) (p + j) a' e (by rw [Nat.add_assoc]; exact Nat.dvd_add_self_left.2 hdvd)
        (by omega) (by omega) ha' he
  · rintro ⟨hfirst, hrest⟩ i j a' e hdvd hlt hle ha' he
    have hpi := Nat.le_of_dvd (by omega) hdvd
    rcases Nat.lt_or_ge i p with hip | hip
    · have hi : i = p - 1 := by omega
      subst hi
      rw [ha, Option.some.injEq] at ha'
      subst ha'
      refine hfirst e (mem_iff_getElem?.2 ⟨j - p, ?_⟩)
      rw [List.getElem?_take, if_pos (by omega), List.getElem?_drop,
        Nat.add_sub_cancel' (by omega), he]
    · refine hrest (i - p) (j - p) a' e ?_ (by omega) (by omega) ?_ ?_
      · have hsub := Nat.dvd_sub hdvd (dvd_refl p)
        rwa [show i + 1 - p = i - p + 1 by omega] at hsub
      · rw [List.getElem?_drop, Nat.add_sub_cancel' hip, ha']
      · rw [List.getElem?_drop, Nat.add_sub_cancel' (by omega), he]

section

variable [DecidableRel lt] (hirrefl : ∀ a, ¬ lt a a) (hasymm : ∀ a b, lt a b → ¬ lt b a)
include hirrefl hasymm

theorem filter_after_append {before later : List α}
    (hsorted : (before ++ a :: later).Pairwise lt) :
    (before ++ a :: later).filter (fun e => lt a e) = later := by
  obtain ⟨-, hafter, hbefore⟩ := pairwise_append.1 hsorted
  have hlater := (pairwise_cons.1 hafter).1
  rw [filter_append, filter_cons, if_neg (by simpa using hirrefl _),
    filter_eq_nil_iff.2, nil_append, filter_eq_self.2]
  · intro e he
    simpa using hlater e he
  · intro e he
    simpa using hasymm _ _ (hbefore e he _ mem_cons_self)

theorem filter_after_eq_drop (hsorted : items.Pairwise lt) {n : ℕ}
    (ha : items[n]? = some a) : items.filter (fun e => lt a e) = items.drop (n + 1) := by
  obtain ⟨hn, hget⟩ := List.getElem?_eq_some_iff.1 ha
  have hsplit : items = items.take n ++ a :: items.drop (n + 1) := by
    rw [← hget, getElem_cons_drop, take_append_drop]
  have hparts := hsorted
  rw [hsplit] at hparts
  have h := filter_after_append hirrefl hasymm hparts
  rwa [← hsplit] at h

end

theorem take_filter_eq_iff :
    (items.filter keep).take p = items.take p ↔ ∀ e ∈ items.take p, keep e = true := by
  constructor
  · intro h e he
    rw [← h] at he
    exact (mem_filter.1 (mem_of_mem_take he)).2
  · intro h
    have hsplit := congrArg (List.filter keep) (take_append_drop p items)
    rw [filter_append, filter_eq_self.2 h] at hsplit
    rw [← hsplit]
    rcases Nat.le_total p items.length with hle | hle
    · rw [take_left' (by rw [length_take, Nat.min_eq_left hle])]
    · rw [drop_eq_nil_of_le hle, filter_nil, append_nil, take_of_length_le]
      simp

theorem le_length_filter_iff (h : ∀ e ∈ items.take p, keep e = true) :
    p ≤ (items.filter keep).length ↔ p ≤ items.length := by
  constructor
  · exact fun hle => hle.trans (length_filter_le _ _)
  · intro hle
    have htake := congrArg List.length (take_filter_eq_iff.2 h)
    rw [length_take, length_take, Nat.min_eq_left hle] at htake
    omega

/-! ### Numbered items -/

theorem drop_zipIdx (xs : List α) : ∀ k n : ℕ,
    (xs.zipIdx n).drop k = (xs.zipIdx n).filter (fun item => n + k ≤ item.2) := by
  induction xs with
  | nil => intro k n; simp
  | cons x xs ih =>
    intro k n
    cases k with
    | zero =>
      rw [drop_zero, filter_eq_self.2]
      intro item hitem
      simpa using le_snd_of_mem_zipIdx hitem
    | succ k =>
      rw [zipIdx_cons, drop_succ_cons, ih, filter_cons,
        if_neg (by simp), Nat.add_assoc, Nat.add_comm 1 k]

theorem zipIdx_take (xs : List α) : ∀ k n : ℕ, (xs.zipIdx n).take k = (xs.take k).zipIdx n := by
  induction xs with
  | nil => intro k n; simp
  | cons x xs ih =>
    intro k n
    cases k with
    | zero => rfl
    | succ k => rw [zipIdx_cons, take_succ_cons, ih, take_succ_cons, zipIdx_cons]

theorem take_zipIdx (xs : List α) : ∀ k n : ℕ,
    (xs.take k).zipIdx n = (xs.zipIdx n).filter (fun item => item.2 < n + k) := by
  induction xs with
  | nil => intro k n; simp
  | cons x xs ih =>
    intro k n
    cases k with
    | zero =>
      rw [take_zero, zipIdx_nil, filter_eq_nil_iff.2]
      intro item hitem
      simpa using le_snd_of_mem_zipIdx hitem
    | succ k =>
      rw [take_succ_cons, zipIdx_cons, zipIdx_cons, ih, filter_cons,
        if_pos (by simp), Nat.add_assoc, Nat.add_comm 1 k]

theorem zipIdx_split (h : xs[i]? = some x) (n : ℕ) : xs.zipIdx n =
      (xs.zipIdx n).take i ++ (x, n + i) :: (xs.zipIdx n).drop (i + 1) := by
  have hget : (xs.zipIdx n)[i]? = some (x, n + i) := by
    rw [List.getElem?_zipIdx, h, Option.map_some]
  obtain ⟨hi, heq⟩ := List.getElem?_eq_some_iff.1 hget
  rw [← heq, getElem_cons_drop, take_append_drop]

theorem drop_zipIdx_cons (h : xs[i]? = some x) (n : ℕ) :
    (xs.zipIdx n).drop i = (x, n + i) :: (xs.zipIdx n).drop (i + 1) := by
  have hget : (xs.zipIdx n)[i]? = some (x, n + i) := by
    rw [List.getElem?_zipIdx, h, Option.map_some]
  obtain ⟨hi, heq⟩ := List.getElem?_eq_some_iff.1 hget
  rw [← heq, getElem_cons_drop]

theorem pairwise_zipIdx (xs : List α) (n : ℕ) : (xs.zipIdx n).Pairwise fun a b => a.2 < b.2 := by
  have h : (List.range' n xs.length).Pairwise (· < ·) := pairwise_lt_range'
  rw [← zipIdx_map_snd, pairwise_map] at h
  exact h

theorem flatMap_filter {β : Type} (keep : α → Bool) (f : α → List β) (xs : List α) :
    (xs.filter keep).flatMap f = xs.flatMap fun x => if keep x then f x else [] := by
  induction xs with
  | nil => rfl
  | cons x xs ih => cases h : keep x <;> simp [h, ih]

end Paging
