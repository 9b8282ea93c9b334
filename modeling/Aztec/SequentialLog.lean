/-
**Logs of reads and writes.**

A log is a list of reads and writes of a store, each with a counter.  It is sequential when every
read has the value that the writes before it leave at its location.  Removing a read keeps a log
sequential; removing a write does so when no read saw it, or when it changed nothing.
-/

import Mathlib.Data.List.Induction
import Mathlib.Data.List.Sort
import Mathlib.Logic.Function.Basic

open Function List

namespace SequentialLog

structure Action (Loc Val : Type) where
  isWrite : Bool
  location : Loc
  value : Val
  counter : ℕ
  deriving DecidableEq

variable {Loc Val : Type} [DecidableEq Loc]

/-! ### The store after a log -/

def applyAction (store : Loc → Val) (a : Action Loc Val) : Loc → Val :=
  if a.isWrite then Function.update store a.location a.value else store

def latest (store : Loc → Val) (log : List (Action Loc Val)) : Loc → Val :=
  log.foldl applyAction store

@[simp] theorem latest_nil (store : Loc → Val) : latest store [] = store := rfl

@[simp] theorem latest_cons (store : Loc → Val) (a : Action Loc Val)
    (log : List (Action Loc Val)) : latest store (a :: log) = latest (applyAction store a) log :=
  rfl

theorem latest_append (store : Loc → Val) (log log' : List (Action Loc Val)) :
    latest store (log ++ log') = latest (latest store log) log' :=
  foldl_append

variable {a old new : Action Loc Val} {log log' : List (Action Loc Val)} {location : Loc}
  {store : Loc → Val} {value : Val}

theorem applyAction_read (h : a.isWrite = false) (store : Loc → Val) :
    applyAction store a = store := by
  simp [applyAction, h]

theorem applyAction_write (h : a.isWrite = true) (store : Loc → Val) :
    applyAction store a = update store a.location a.value := by
  simp [applyAction, h]

def lastWrite? (log : List (Action Loc Val)) (location : Loc) : Option (Action Loc Val) :=
  log.reverse.find? fun a => a.isWrite && decide (a.location = location)

theorem lastWrite?_append (log log' : List (Action Loc Val)) (location : Loc) :
    lastWrite? (log ++ log') location =
      (lastWrite? log' location).or (lastWrite? log location) := by
  simp [lastWrite?, find?_append]

theorem mem_of_lastWrite? (h : lastWrite? log location = some a) : a ∈ log :=
  mem_reverse.1 (mem_of_find?_eq_some h)

theorem latest_eq_lastWrite (store : Loc → Val) (log : List (Action Loc Val)) (location : Loc) :
    latest store log location =
      ((lastWrite? log location).map Action.value).getD (store location) := by
  induction log using reverseRecOn with
  | nil => rfl
  | append_singleton log a ih =>
    rw [latest_append, lastWrite?_append]
    by_cases hwrite : a.isWrite = true
    · by_cases hloc : a.location = location
      · simp [lastWrite?, hwrite, hloc, applyAction_write]
      · simp [lastWrite?, hloc, applyAction_write hwrite, update_of_ne (Ne.symm hloc)]
        simpa [lastWrite?] using ih
    · simp [lastWrite?, hwrite, applyAction]
      simpa [lastWrite?] using ih

/-! ### Sequential logs -/

/-- Every read has the value of the latest write before it. -/
def Sequential : (Loc → Val) → List (Action Loc Val) → Prop
  | _, [] => True
  | store, a :: log =>
    (a.isWrite = false → a.value = store a.location) ∧ Sequential (applyAction store a) log

instance [DecidableEq Val] (store : Loc → Val) (log : List (Action Loc Val)) :
    Decidable (Sequential store log) := by
  induction log generalizing store with
  | nil => exact isTrue trivial
  | cons a log ih =>
    haveI := ih (applyAction store a)
    exact inferInstanceAs (Decidable (_ ∧ _))

theorem sequential_append (store : Loc → Val) (log log' : List (Action Loc Val)) :
    Sequential store (log ++ log') ↔ Sequential store log ∧ Sequential (latest store log) log' := by
  induction log generalizing store with
  | nil => simp [Sequential]
  | cons a log ih => simp [Sequential, ih, and_assoc]

theorem sequential_concat (store : Loc → Val) (log : List (Action Loc Val)) (a : Action Loc Val) :
    Sequential store (log ++ [a]) ↔
      Sequential store log ∧ (a.isWrite = false → a.value = latest store log a.location) := by
  simp [sequential_append, Sequential]

theorem latest_of_mem (h : Sequential store (log ++ a :: log')) :
    latest store (log ++ [a]) a.location = a.value := by
  have hread := ((sequential_append store log _).1 h).2.1
  rw [latest_append]
  by_cases hwrite : a.isWrite = true
  · simp [applyAction_write hwrite]
  · simp [applyAction, hwrite, hread (by simpa using hwrite)]

/-- **An action has the value that the store holds at the end** when the last write after it, if
there is one, is of the same value. -/
theorem latest_eq_of_mem (h : Sequential store log)
    (hsorted : log.Pairwise fun a b => a.counter < b.counter) (hmem : a ∈ log)
    (hlast : ∀ b, lastWrite? log a.location = some b → a.counter < b.counter → b.value = a.value) :
    latest store log a.location = a.value := by
  obtain ⟨before, after, rfl⟩ := append_of_mem hmem
  have hsplit : before ++ a :: after = (before ++ [a]) ++ after := by simp
  have hafter : ∀ b ∈ after, a.counter < b.counter :=
    (pairwise_cons.1 (pairwise_append.1 hsorted).2.1).1
  rw [hsplit, latest_append, latest_eq_lastWrite, latest_of_mem h]
  cases hb : lastWrite? after a.location with
  | none => rfl
  | some b =>
    refine hlast b ?_ (hafter b (mem_of_lastWrite? hb))
    rw [hsplit, lastWrite?_append, hb, Option.some_or]

theorem sequential_remove_read (ha : a.isWrite = false) (h : Sequential store (log ++ a :: log')) :
    Sequential store (log ++ log') ∧
      latest store (log ++ log') = latest store (log ++ a :: log') := by
  rw [sequential_append] at h ⊢
  rw [latest_append, latest_append, latest_cons, applyAction_read ha]
  refine ⟨⟨h.1, ?_⟩, rfl⟩
  rw [← applyAction_read ha (latest store log)]
  exact h.2.2

/-- No read sees the value at a location before the location is written. -/
def Unseen (location : Loc) : List (Action Loc Val) → Prop
  | [] => True
  | a :: log => if a.location = location then a.isWrite = true else Unseen location log

theorem sequential_of_unseen (hunseen : Unseen location log)
    (h : Sequential (update store location value) log) : Sequential store log := by
  induction log generalizing store with
  | nil => trivial
  | cons a log ih =>
    unfold Unseen at hunseen
    split at hunseen
    · next hloc =>
        refine ⟨fun hread => absurd hunseen (by simp [hread]), ?_⟩
        have hrest := h.2
        rwa [applyAction_write hunseen, hloc, update_idem, ← hloc,
          ← applyAction_write hunseen] at hrest
    · next hloc =>
        refine ⟨fun hread => ?_, ih hunseen ?_⟩
        · rw [h.1 hread, update_of_ne hloc]
        · have hrest := h.2
          by_cases hwrite : a.isWrite = true
          · rw [applyAction_write hwrite] at hrest ⊢
            rwa [update_comm (Ne.symm hloc)] at hrest
          · rwa [applyAction_read (by simpa using hwrite)] at hrest ⊢

theorem update_latest {value' : Val} (log : List (Action Loc Val)) :
    update (latest (update store location value) log) location value' =
      update (latest store log) location value' := by
  induction log generalizing store with
  | nil => exact update_idem ..
  | cons a log ih =>
    rw [latest_cons, latest_cons]
    by_cases hwrite : a.isWrite = true
    · rw [applyAction_write hwrite, applyAction_write hwrite]
      by_cases hloc : a.location = location
      · rw [hloc, update_idem]
      · rw [update_comm (Ne.symm hloc), ih]
    · rw [applyAction_read (by simpa using hwrite), applyAction_read (by simpa using hwrite), ih]

theorem sequential_replace (hold : old.isWrite = true) (hnew : new.isWrite = true)
    (hloc : old.location = new.location) (h : Sequential store (log ++ old :: log'))
    (hdrop : latest store log old.location = old.value ∨ Unseen old.location log') :
    Sequential store (log ++ log' ++ [new]) ∧ latest store (log ++ log' ++ [new]) =
        update (latest store (log ++ old :: log')) new.location new.value := by
  obtain ⟨hlog, -, hlog'⟩ := (sequential_append store log _).1 h
  rw [applyAction_write hold] at hlog'
  have hrest : Sequential (latest store log) log' := by
    rcases hdrop with hvalue | hunseen
    · rwa [← hvalue, update_eq_self] at hlog'
    · exact sequential_of_unseen hunseen hlog'
  constructor
  · exact (sequential_concat store _ new).2
      ⟨(sequential_append store log log').2 ⟨hlog, hrest⟩, fun hread => by simp [hnew] at hread⟩
  · rw [latest_append, latest_append, latest_append, latest_cons, latest_cons, latest_nil,
      applyAction_write hnew, applyAction_write hold, hloc, update_latest]

/-! ### The order of the counters -/

omit [DecidableEq Loc]

def Before (a b : Action Loc Val) : Prop := a.counter ≤ b.counter

instance : DecidableRel (@Before Loc Val) := fun a b =>
  inferInstanceAs (Decidable (a.counter ≤ b.counter))

instance : Std.Total (@Before Loc Val) :=
  ⟨fun a b => Nat.le_total a.counter b.counter⟩

instance : IsTrans (Action Loc Val) Before := ⟨fun _ _ _ => Nat.le_trans⟩

def sort (log : List (Action Loc Val)) : List (Action Loc Val) := log.insertionSort Before

theorem sort_perm (log : List (Action Loc Val)) : (sort log).Perm log :=
  perm_insertionSort ..

theorem sort_eq (hperm : log.Perm log') (hsorted : log'.Pairwise fun a b => a.counter < b.counter) :
    sort log = log' := by
  refine ((sort_perm log).trans hperm).eq_of_pairwise (fun a b ha hb hab hba => ?_)
    (pairwise_insertionSort Before log) (hsorted.imp Nat.le_of_lt)
  have hinj : ∀ x ∈ log', ∀ y ∈ log', x.counter = y.counter → x = y := fun x hx y hy =>
    List.Pairwise.forall_of_forall_of_flip (R := fun x y => x.counter = y.counter → x = y)
      (fun _ _ _ => rfl) (hsorted.imp fun hlt heq => absurd heq (Nat.ne_of_lt hlt))
      (hsorted.imp fun hlt heq => absurd heq.symm (Nat.ne_of_lt hlt)) hx hy
  exact hinj a (hperm.subset ((sort_perm log).subset ha)) b hb (Nat.le_antisymm hab hba)

theorem sort_concat (hperm : log'.Perm (new :: log))
    (hsorted : (sort log).Pairwise fun a b => a.counter < b.counter)
    (hlast : ∀ a ∈ log, a.counter < new.counter) : sort log' = sort log ++ [new] ∧
      (sort log').Pairwise fun a b => a.counter < b.counter := by
  have hsorted' : (sort log ++ [new]).Pairwise fun a b => a.counter < b.counter := by
    refine pairwise_append.2 ⟨hsorted, pairwise_singleton _ _, fun a ha b hb => ?_⟩
    rw [mem_singleton.1 hb]
    exact hlast a ((sort_perm log).subset ha)
  have heq := sort_eq (hperm.trans (((sort_perm log).symm.cons new).trans
    (perm_append_singleton new (sort log)).symm)) hsorted'
  exact ⟨heq, heq ▸ hsorted'⟩

theorem sort_replace {rest : List (Action Loc Val)} (hold : log.Perm (old :: rest))
    (hnew : log'.Perm (new :: rest))
    (hsorted : (sort log).Pairwise fun a b => a.counter < b.counter)
    (hlast : ∀ a ∈ log, a.counter < new.counter) :
    ∃ before after, sort log = before ++ old :: after ∧ sort log' = before ++ after ++ [new] ∧
      (sort log').Pairwise fun a b => a.counter < b.counter := by
  obtain ⟨before, after, hsplit⟩ := append_of_mem
    (((sort_perm log).trans hold).mem_iff.2 mem_cons_self)
  have hrest : rest.Perm (before ++ after) := by
    refine List.Perm.cons_inv (a := old) (hold.symm.trans ((sort_perm log).symm.trans ?_))
    rw [hsplit]
    exact perm_middle
  have hsorted₁ : (before ++ after).Pairwise fun a b => a.counter < b.counter :=
    hsorted.sublist (hsplit ▸ (sublist_cons_self old after).append_left before)
  have hsort : sort rest = before ++ after := sort_eq hrest hsorted₁
  obtain ⟨heq, hsorted'⟩ := sort_concat hnew (hsort ▸ hsorted₁)
    fun a ha => hlast a (hold.symm.subset (mem_cons_of_mem old ha))
  exact ⟨before, after, hsplit, hsort ▸ heq, hsorted'⟩

end SequentialLog
