/-
**The in-memory store of the trees.**

`MemoryStore` keeps a committed map, the values put since the last commit and the keys deleted since
then.  `commit` merges the two into the committed map with `insert`, which leaves the value of a key
that is there already.
-/

import Mathlib.Data.List.AList
import Mathlib.Tactic

open List Option

/-- `MemoryStore`, with its pending batch. -/
structure TransactionalStore (K V : Type) where
  store : AList fun _ : K => V
  puts : AList fun _ : K => V
  deletes : List K

namespace TransactionalStore

variable {K V : Type} [DecidableEq K]

/-! ### The store -/

def empty : TransactionalStore K V := ⟨∅, ∅, []⟩

def put (s : TransactionalStore K V) (key : K) (value : V) : TransactionalStore K V :=
  { s with puts := s.puts.insert key value, deletes := s.deletes.filter (· ≠ key) }

def del (s : TransactionalStore K V) (key : K) : TransactionalStore K V :=
  { s with puts := s.puts.erase key, deletes := s.deletes.insert key }

def get (s : TransactionalStore K V) (key : K) : Option V :=
  if key ∈ s.deletes then none
  else
    match s.puts.lookup key with
    | some value => some value
    | none => s.store.lookup key

/-- `std::map::insert`. -/
def insertNew (m : AList fun _ : K => V) (it : Sigma fun _ : K => V) : AList fun _ : K => V :=
  if it.1 ∈ m then m else m.insert it.1 it.2

def commit (s : TransactionalStore K V) : TransactionalStore K V :=
  { store := s.deletes.foldl (fun m key => m.erase key) (s.puts.entries.foldl insertNew s.store)
    puts := ∅
    deletes := [] }

def rollback (s : TransactionalStore K V) : TransactionalStore K V :=
  { s with puts := ∅, deletes := [] }

inductive Op (K V : Type)
  | put (key : K) (value : V)
  | del (key : K)
  | get (key : K)
  | commit
  | rollback

def step (s : TransactionalStore K V) : Op K V → TransactionalStore K V
  | .put key value => s.put key value
  | .del key => s.del key
  | .get _ => s
  | .commit => s.commit
  | .rollback => s.rollback

def run (s : TransactionalStore K V) (ops : List (Op K V)) : TransactionalStore K V :=
  ops.foldl step s

/-! ### What the store is for -/

/-- The writes of a run: those that were committed, and those since the last commit.  A write of
`none` is a delete. -/
structure History (K V : Type) where
  committed : List (K × Option V)
  pending : List (K × Option V)

def lastWrite (writes : List (K × Option V)) (key : K) : Option (Option V) :=
  writes.foldl (fun last w => if w.1 = key then some w.2 else last) none

namespace History

def step (h : History K V) : Op K V → History K V
  | .put key value => { h with pending := h.pending ++ [(key, some value)] }
  | .del key => { h with pending := h.pending ++ [(key, none)] }
  | .get _ => h
  | .commit => ⟨h.committed ++ h.pending, []⟩
  | .rollback => ⟨h.committed, []⟩

def run (h : History K V) (ops : List (Op K V)) : History K V := ops.foldl step h

def value (h : History K V) (key : K) : Option V :=
  (lastWrite (h.committed ++ h.pending) key).join

def committedValue (h : History K V) (key : K) : Option V := (lastWrite h.committed key).join

end History

theorem run_append (s : TransactionalStore K V) (ops ops' : List (Op K V)) :
    s.run (ops ++ ops') = (s.run ops).run ops' :=
  foldl_append

theorem lastWrite_concat (writes : List (K × Option V)) (w : K × Option V) (key : K) :
    lastWrite (writes ++ [w]) key = if w.1 = key then some w.2 else lastWrite writes key := by
  rw [lastWrite, foldl_append]
  rfl

theorem lastWrite_append (writes later : List (K × Option V)) (key : K) :
    lastWrite (writes ++ later) key = (lastWrite later key).or (lastWrite writes key) := by
  induction later using reverseRecOn with
  | nil => simp [lastWrite]
  | append_singleton later w ih =>
    rw [← append_assoc, lastWrite_concat, lastWrite_concat, ih]
    by_cases hw : w.1 = key
    · rw [if_pos hw, if_pos hw, some_or]
    · rw [if_neg hw, if_neg hw]

/-! ### The merge -/

theorem lookup_insertNew (m : AList fun _ : K => V) (it : Sigma fun _ : K => V) (key : K) :
    (insertNew m it).lookup key = (m.lookup key).or (if it.1 = key then some it.2 else none) := by
  rw [insertNew]
  by_cases hmem : it.1 ∈ m
  · rw [if_pos hmem]
    by_cases hkey : it.1 = key
    · subst hkey
      obtain ⟨value, hvalue⟩ := isSome_iff_exists.1 (AList.lookup_isSome.2 hmem)
      rw [hvalue, some_or]
    · rw [if_neg hkey, or_none]
  · rw [if_neg hmem]
    by_cases hkey : it.1 = key
    · subst hkey
      rw [AList.lookup_insert, AList.lookup_eq_none.2 hmem, none_or, if_pos rfl]
    · rw [AList.lookup_insert_ne (Ne.symm hkey), if_neg hkey, or_none]

theorem lookup_foldl_insertNew (entries : List (Sigma fun _ : K => V)) (m : AList fun _ : K => V)
    (key : K) :
    (entries.foldl insertNew m).lookup key = (m.lookup key).or (entries.dlookup key) := by
  induction entries generalizing m with
  | nil => rw [foldl_nil, dlookup_nil, Option.or_none]
  | cons it entries ih =>
    rw [foldl_cons, ih, lookup_insertNew, Option.or_assoc]
    obtain ⟨key', value⟩ := it
    by_cases hkey : key' = key
    · subst hkey
      rw [if_pos rfl, dlookup_cons_eq, Option.some_or]
    · rw [if_neg hkey, dlookup_cons_ne _ _ (Ne.symm hkey), Option.none_or]

theorem lookup_foldl_erase (keys : List K) (m : AList fun _ : K => V) (key : K) :
    (keys.foldl (fun m key => m.erase key) m).lookup key =
      if key ∈ keys then none else m.lookup key := by
  induction keys generalizing m with
  | nil => simp
  | cons first keys ih =>
    rw [foldl_cons, ih]
    by_cases hmem : key ∈ keys
    · rw [if_pos hmem, if_pos (mem_cons_of_mem _ hmem)]
    · by_cases hfirst : key = first
      · subst hfirst
        rw [if_neg hmem, if_pos mem_cons_self, AList.lookup_erase]
      · rw [if_neg hmem, if_neg (by simp [hfirst, hmem]), AList.lookup_erase_ne hfirst]

theorem lookup_commit (s : TransactionalStore K V) (key : K) : s.commit.store.lookup key =
      if key ∈ s.deletes then none else (s.store.lookup key).or (s.puts.lookup key) := by
  rw [commit, lookup_foldl_erase, lookup_foldl_insertNew]
  rfl

/-! ### The invariant -/

/-- What a get sees of the operations since the last commit. -/
def pendingWrite (s : TransactionalStore K V) (key : K) : Option (Option V) :=
  if key ∈ s.deletes then some none else (s.puts.lookup key).map some

theorem get_eq (s : TransactionalStore K V) (key : K) :
    s.get key = ((s.pendingWrite key).or (some (s.store.lookup key))).join := by
  rw [get, pendingWrite]
  by_cases hdeleted : key ∈ s.deletes
  · rw [if_pos hdeleted, if_pos hdeleted]
    rfl
  · rw [if_neg hdeleted, if_neg hdeleted]
    cases s.puts.lookup key <;> rfl

structure Holds (s : TransactionalStore K V) (h : History K V) : Prop where
  committed : ∀ key, s.store.lookup key = h.committedValue key
  pending : ∀ key, s.pendingWrite key = lastWrite h.pending key

/-- No value that is to be committed replaces another one. -/
def Safe (s : TransactionalStore K V) : Prop :=
  ∀ it ∈ s.puts.entries, ∀ old ∈ s.store.lookup it.1, old = it.2

instance [DecidableEq V] (s : TransactionalStore K V) : Decidable s.Safe :=
  inferInstanceAs (Decidable (∀ it ∈ s.puts.entries, ∀ old ∈ s.store.lookup it.1, old = it.2))

def SafeRun : TransactionalStore K V → List (Op K V) → Prop
  | _, [] => True
  | s, op :: ops =>
    (match op with
      | .commit => s.Safe
      | _ => True) ∧ SafeRun (s.step op) ops

theorem holds_empty : Holds (empty : TransactionalStore K V) ⟨[], []⟩ :=
  ⟨fun key => AList.lookup_empty key, fun _ => rfl⟩

variable {s : TransactionalStore K V} {h : History K V} {ops : List (Op K V)}

theorem Holds.get_eq (hs : Holds s h) (key : K) : s.get key = h.value key := by
  rw [TransactionalStore.get_eq, hs.pending, hs.committed, History.value, lastWrite_append,
    History.committedValue]
  cases lastWrite h.pending key <;> rfl

theorem pendingWrite_put (s : TransactionalStore K V) (key : K) (value : V) (key' : K) :
    (s.put key value).pendingWrite key' =
      if key = key' then some (some value) else s.pendingWrite key' := by
  rw [pendingWrite, pendingWrite, put]
  by_cases hkey : key = key'
  · subst hkey
    rw [if_pos rfl, if_neg (by simp), AList.lookup_insert, map_some]
  · have hmem : key' ∈ s.deletes.filter (· ≠ key) ↔ key' ∈ s.deletes := by
      simp [Ne.symm hkey]
    rw [if_neg hkey, AList.lookup_insert_ne (Ne.symm hkey)]
    simp only [hmem]

theorem pendingWrite_del (s : TransactionalStore K V) (key key' : K) :
    (s.del key).pendingWrite key' = if key = key' then some none else s.pendingWrite key' := by
  rw [pendingWrite, pendingWrite, del]
  by_cases hkey : key = key'
  · subst hkey
    rw [if_pos rfl, if_pos (mem_insert_self ..)]
  · have hmem : key' ∈ s.deletes.insert key ↔ key' ∈ s.deletes := by
      simp [mem_insert_iff, Ne.symm hkey]
    rw [if_neg hkey, AList.lookup_erase_ne (Ne.symm hkey)]
    simp only [hmem]

theorem lookup_commit_of_safe (hsafe : s.Safe) (key : K) :
    s.commit.store.lookup key = s.get key := by
  rw [lookup_commit, get]
  by_cases hdeleted : key ∈ s.deletes
  · rw [if_pos hdeleted, if_pos hdeleted]
  · rw [if_neg hdeleted, if_neg hdeleted]
    cases hput : s.puts.lookup key with
    | none => exact or_none
    | some value =>
      cases hold : s.store.lookup key with
      | none => rfl
      | some old =>
        rw [some_or, hsafe ⟨key, value⟩ (AList.mem_lookup_iff.1 hput) old hold]

theorem Holds.step (hs : Holds s h) (op : Op K V) (hsafe : op = .commit → s.Safe) :
    Holds (s.step op) (h.step op) := by
  cases op with
  | put key value =>
    refine ⟨hs.committed, fun key' => ?_⟩
    rw [TransactionalStore.step, pendingWrite_put, hs.pending, History.step, lastWrite_concat]
  | del key =>
    refine ⟨hs.committed, fun key' => ?_⟩
    rw [TransactionalStore.step, pendingWrite_del, hs.pending, History.step, lastWrite_concat]
  | get key => exact hs
  | commit =>
    refine ⟨fun key => ?_, fun _ => rfl⟩
    rw [TransactionalStore.step, lookup_commit_of_safe (hsafe rfl), hs.get_eq]
    rfl
  | rollback => exact ⟨hs.committed, fun _ => rfl⟩

theorem Holds.run (hs : Holds s h) (hsafe : SafeRun s ops) : Holds (s.run ops) (h.run ops) := by
  induction ops generalizing s h with
  | nil => exact hs
  | cons op ops ih =>
    obtain ⟨hop, hops⟩ := hsafe
    exact ih (hs.step op fun hcommit => by subst hcommit; exact hop) hops

/-! ### Runs -/

theorem safeRun_append {ops' : List (Op K V)} :
    SafeRun s (ops ++ ops') ↔ SafeRun s ops ∧ SafeRun (s.run ops) ops' := by
  induction ops generalizing s with
  | nil => exact ⟨fun h => ⟨trivial, h⟩, fun h => h.2⟩
  | cons op ops ih =>
    have hrest := ih (s := s.step op)
    exact (and_congr_right fun _ => hrest).trans and_assoc.symm

theorem safeRun_of_no_commit (s : TransactionalStore K V) (h : ∀ op ∈ ops, op ≠ .commit) :
    SafeRun s ops := by
  induction ops generalizing s with
  | nil => trivial
  | cons op ops ih =>
    obtain ⟨hop, hops⟩ := forall_mem_cons.1 h
    refine ⟨?_, ih (s.step op) hops⟩
    cases op with
    | commit => exact absurd rfl hop
    | put key value => trivial
    | del key => trivial
    | get key => trivial
    | rollback => trivial

omit [DecidableEq K] in
theorem writes_run {h' : History K V} (heq : h'.committed ++ h'.pending = h.committed ++ h.pending)
    {later : List (Op K V)} (hlater : ∀ op ∈ later, op ≠ .rollback) :
    (h'.run later).committed ++ (h'.run later).pending =
      (h.run later).committed ++ (h.run later).pending := by
  induction later generalizing h h' with
  | nil => exact heq
  | cons op later ih =>
    obtain ⟨hop, hrest⟩ := forall_mem_cons.1 hlater
    have hstep : (h'.step op).committed ++ (h'.step op).pending =
        (h.step op).committed ++ (h.step op).pending := by
      cases op with
      | put key value => simp only [History.step, ← append_assoc, heq]
      | del key => simp only [History.step, ← append_assoc, heq]
      | get key => exact heq
      | commit => simp only [History.step, append_nil, heq]
      | rollback => exact absurd rfl hop
    exact ih hstep hrest

theorem store_run_of_no_commit (s : TransactionalStore K V) (h : ∀ op ∈ ops, op ≠ .commit) :
    (s.run ops).store = s.store := by
  induction ops generalizing s with
  | nil => rfl
  | cons op ops ih =>
    obtain ⟨hop, hops⟩ := forall_mem_cons.1 h
    refine (ih (s.step op) hops).trans ?_
    cases op with
    | commit => exact absurd rfl hop
    | put key value => rfl
    | del key => rfl
    | get key => rfl
    | rollback => rfl

/-- What a transactional map does after a run from the empty store: a get gives the value of the
last write that was not rolled back; the last commit did not change it; a rollback restores the
state of the last commit. -/
def Transactional (ops : List (Op K V)) : Prop :=
  (∀ key, ((empty : TransactionalStore K V).run ops).get key =
    ((⟨[], []⟩ : History K V).run ops).value key) ∧
  (∀ before later, ops = before ++ .commit :: later →
    (∀ op ∈ later, op ≠ .commit ∧ op ≠ .rollback) → ∀ key,
      ((empty : TransactionalStore K V).run ops).get key = (empty.run (before ++ later)).get key) ∧
  ∀ before later, ops = before ++ .commit :: later → (∀ op ∈ later, op ≠ .commit) →
    ((empty : TransactionalStore K V).run ops).rollback = empty.run (before ++ [.commit])

/-- **Where every commit is safe, the store is a transactional map.** -/
theorem run_transactional {ops : List (Op K V)} (hsafe : SafeRun empty ops) :
    Transactional ops := by
  have hget : ∀ ops : List (Op K V), SafeRun empty ops → ∀ key,
      ((empty : TransactionalStore K V).run ops).get key =
        ((⟨[], []⟩ : History K V).run ops).value key := by
    intro ops hsafe key
    exact (holds_empty.run hsafe).get_eq key
  refine ⟨hget ops hsafe, ?_, ?_⟩
  · rintro before later rfl hlater key
    have hbefore : SafeRun (empty : TransactionalStore K V) (before ++ later) :=
      safeRun_append.2 ⟨(safeRun_append.1 hsafe).1,
        safeRun_of_no_commit _ fun op hop => (hlater op hop).1⟩
    rw [hget _ hsafe, hget _ hbefore, History.value, History.value, History.run, History.run,
      List.foldl_append, List.foldl_append]
    exact congrArg (fun writes => (lastWrite writes key).join)
      (writes_run (List.append_nil _) fun op hop => (hlater op hop).2)
  · rintro before later rfl hlater
    have hstore := store_run_of_no_commit ((empty.run before).commit) hlater
    rw [run_append, run_append]
    change (((empty.run before).commit).run later).rollback = (empty.run before).commit
    rw [rollback, hstore]
    rfl

/-- A key is put, deleted and put again, each time committed. -/
theorem run_transactional_reinserted : Transactional
      [Op.put 1 10, .commit, .del 1, .commit, .put 1 20, .commit, (.rollback : Op ℕ ℕ)] :=
  run_transactional ⟨trivial, show Safe _ by decide, trivial, show Safe _ by decide, trivial,
    show Safe _ by decide, trivial, trivial⟩

/-- A value that is put over a committed one is lost. -/
theorem not_transactional : ¬∀ ops : List (Op ℕ ℕ), Transactional ops := by
  intro h
  have hget := (h [.put 1 10, .commit, .put 1 20, .commit]).1 1
  revert hget
  decide

end TransactionalStore
