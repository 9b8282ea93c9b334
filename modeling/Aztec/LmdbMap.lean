/-
**Range queries of a map in LMDB.**

The entries of all maps lie in one store, in the order of their slots, and a range query visits the
slots between two bounds.  A bound that is absent is replaced by a sentinel before or after all
keys of the map; so is a bound that is not truthy, `0` or the empty string.
-/

import Mathlib.Data.Prod.Lex
import Mathlib.Data.String.Basic
import Mathlib.Order.WithBot

open List

namespace LmdbMap

variable {K V : Type} [LinearOrder K]

structure Entry (K V : Type) where
  mapName : String
  key : K
  value : V

/-- The sentinels of a map lie before and after its keys. -/
abbrev Slot (K : Type) := String ×ₗ WithBot (WithTop K)

def slot (name : String) (key : K) : Slot K := toLex (name, ((key : WithTop K) : WithBot _))

def startSentinel (name : String) : Slot K := toLex (name, ⊥)

def endSentinel (name : String) : Slot K := toLex (name, ((⊤ : WithTop K) : WithBot _))

def Entry.slot (e : Entry K V) : Slot K := LmdbMap.slot e.mapName e.key

structure Database (K V : Type) [LinearOrder K] where
  entries : List (Entry K V)
  sorted : entries.Pairwise fun a b => a.slot ≤ b.slot

structure Range (K : Type) where
  (start end' : Option K)
  reverse : Bool
  limit : Option ℕ

/-- The first entries, or all when there is no limit. -/
def limited {α : Type} (limit : Option ℕ) (l : List α) : List α := (limit.map l.take).getD l

/-- LMDB's `getRange`: from `start` (inclusive) towards `end` (exclusive), in reverse order from
above. -/
def getRange (db : Database K V) (start end' : Slot K) (reverse : Bool) (limit : Option ℕ) :
    List (Entry K V) :=
  limited limit (if reverse then
    db.entries.reverse.filter fun e => end' < e.slot ∧ e.slot ≤ start
  else db.entries.filter fun e => start ≤ e.slot ∧ e.slot < end')

def boundOr (truthy : K → Bool) (name : String) (bound : Option K) (sentinel : Slot K) : Slot K :=
  match bound with
  | some key => if truthy key then slot name key else sentinel
  | none => sentinel

/-- `entries`, on the keys that are truthy as JavaScript values. -/
def entries (truthy : K → Bool) (name : String) (db : Database K V) (range : Range K) :
    List (K × V) :=
  let start := if range.reverse then boundOr truthy name range.end' (endSentinel name)
    else boundOr truthy name range.start (startSentinel name)
  let end' := if range.reverse then boundOr truthy name range.start (startSentinel name)
    else boundOr truthy name range.end' (endSentinel name)
  (getRange db start end' range.reverse range.limit).map fun e => (e.key, e.value)

/-- The key lies within the bounds; the one the query begins with is inclusive. -/
def Admits (reverse : Bool) (start end' : Option K) (key : K) : Prop :=
  if reverse then (∀ s ∈ start, s < key) ∧ ∀ e ∈ end', key ≤ e
  else (∀ s ∈ start, s ≤ key) ∧ ∀ e ∈ end', key < e

instance (reverse : Bool) (start end' : Option K) : DecidablePred (Admits reverse start end') :=
  fun _ => inferInstanceAs (Decidable (if reverse then _ else _))

def contents (name : String) (db : Database K V) (reverse : Bool) : List (K × V) :=
  let own := (db.entries.filter fun e => e.mapName = name).map fun e => (e.key, e.value)
  if reverse then own.reverse else own

/-- The first entries within the bounds, in ascending or descending order. -/
def Exact (truthy : K → Bool) (name : String) (db : Database K V) (range : Range K) : Prop :=
  entries truthy name db range = limited range.limit ((contents name db range.reverse).filter
    fun e => Admits range.reverse range.start range.end' e.1) ∧
  (entries truthy name db range).Pairwise fun a b =>
    if range.reverse then b.1 ≤ a.1 else a.1 ≤ b.1

/-! ### The slots between two bounds -/

omit [LinearOrder K] in
theorem boundOr_eq (truthy : K → Bool) (name : String) (bound : Option K)
    (sentinel : WithBot (WithTop K)) : boundOr truthy name bound (toLex (name, sentinel)) =
      toLex (name, (bound.filter truthy).elim sentinel fun k =>
        ((k : WithTop K) : WithBot (WithTop K))) := by
  cases bound with
  | none => rfl
  | some key =>
    by_cases h : truthy key = true
    · simp only [boundOr, Option.filter_some, h, if_true]
      rfl
    · simp only [boundOr, Option.filter_some, h]
      rfl

theorem between_iff {name mapName : String} {x y z : WithBot (WithTop K)} :
    ((toLex (name, x) : Slot K) ≤ toLex (mapName, y) ∧
      (toLex (mapName, y) : Slot K) < toLex (name, z) ↔ mapName = name ∧ x ≤ y ∧ y < z) ∧
    ((toLex (name, x) : Slot K) < toLex (mapName, y) ∧
      (toLex (mapName, y) : Slot K) ≤ toLex (name, z) ↔ mapName = name ∧ x < y ∧ y ≤ z) := by
  simp only [Prod.Lex.toLex_le_toLex, Prod.Lex.toLex_lt_toLex]
  rcases lt_trichotomy mapName name with h | rfl | h
  · simp [h, h.ne, h.ne', h.not_gt]
  · simp
  · simp [h, h.ne, h.ne', h.not_gt]

theorem mem_forward_iff (truthy : K → Bool) (name : String) (start end' : Option K)
    (e : Entry K V) : boundOr truthy name start (startSentinel name) ≤ e.slot ∧
        e.slot < boundOr truthy name end' (endSentinel name) ↔
      e.mapName = name ∧ Admits false (start.filter truthy) (end'.filter truthy) e.key := by
  rw [startSentinel, endSentinel, boundOr_eq, boundOr_eq, Entry.slot, slot, between_iff.1, Admits,
    if_neg Bool.false_ne_true]
  have htop : ((e.key : WithTop K) : WithBot (WithTop K)) < ⊤ :=
    WithBot.coe_lt_coe.2 (WithTop.coe_lt_top e.key)
  cases start.filter truthy <;> cases end'.filter truthy <;> simp [htop]

theorem mem_backward_iff (truthy : K → Bool) (name : String) (start end' : Option K)
    (e : Entry K V) : boundOr truthy name start (startSentinel name) < e.slot ∧
        e.slot ≤ boundOr truthy name end' (endSentinel name) ↔
      e.mapName = name ∧ Admits true (start.filter truthy) (end'.filter truthy) e.key := by
  rw [startSentinel, endSentinel, boundOr_eq, boundOr_eq, Entry.slot, slot, between_iff.2, Admits,
    if_pos rfl]
  cases start.filter truthy <;> cases end'.filter truthy <;> simp

/-! ### Queries -/

theorem entries_eq (truthy : K → Bool) (name : String) (db : Database K V) (range : Range K) :
    entries truthy name db range = limited range.limit
      ((contents name db range.reverse).filter fun e =>
        Admits range.reverse (range.start.filter truthy) (range.end'.filter truthy) e.1) := by
  have hmap : ∀ (limit : Option ℕ) (l : List (Entry K V)) (f : Entry K V → K × V),
      (limited limit l).map f = limited limit (l.map f) := by
    intro limit l f
    cases limit with
    | none => rfl
    | some n => exact map_take
  rw [entries, getRange, hmap]
  cases hreverse : range.reverse with
  | false =>
    simp only [Bool.false_eq_true, if_false, mem_forward_iff, contents, filter_map, filter_filter]
    congr 3
    funext e
    simp [Bool.and_comm]
  | true =>
    simp only [if_true, mem_backward_iff, contents, filter_reverse, map_reverse,
      filter_map, filter_filter]
    congr 4
    funext e
    simp [Bool.and_comm]

theorem contents_sorted (name : String) (db : Database K V) (reverse : Bool) :
    (contents name db reverse).Pairwise fun a b => if reverse then b.1 ≤ a.1 else a.1 ≤ b.1 := by
  have hown : ((db.entries.filter fun e => e.mapName = name).map fun e => (e.key, e.value)).Pairwise
      fun a b : K × V => a.1 ≤ b.1 := by
    rw [pairwise_map]
    refine (db.sorted.sublist filter_sublist).imp_of_mem fun {a b} ha hb hslot => ?_
    have hname : a.mapName = b.mapName := by
      rw [of_decide_eq_true (mem_filter.1 ha).2, of_decide_eq_true (mem_filter.1 hb).2]
    rw [Entry.slot, Entry.slot, slot, slot, hname, Prod.Lex.toLex_le_toLex] at hslot
    simpa using hslot
  cases reverse with
  | false => exact hown
  | true => exact pairwise_reverse.2 hown

theorem entries_sorted (truthy : K → Bool) (name : String) (db : Database K V) (range : Range K) :
    (entries truthy name db range).Pairwise fun a b =>
      if range.reverse then b.1 ≤ a.1 else a.1 ≤ b.1 := by
  rw [entries_eq]
  have hfilter := (contents_sorted name db range.reverse).filter fun e =>
    decide (Admits range.reverse (range.start.filter truthy) (range.end'.filter truthy) e.1)
  cases range.limit with
  | none => exact hfilter
  | some n => exact hfilter.sublist (take_sublist n _)

theorem admits_filter {truthy : K → Bool} {reverse : Bool} {start end' : Option K} {key : K}
    (h : Admits reverse start end' key) :
    Admits reverse (start.filter truthy) (end'.filter truthy) key := by
  have hsub : ∀ {bound : Option K} {k : K}, k ∈ bound.filter truthy → k ∈ bound :=
    fun h => (Option.mem_filter_iff.1 h).1
  cases reverse with
  | false =>
    rw [Admits, if_neg Bool.false_ne_true] at h ⊢
    exact ⟨fun s hs => h.1 s (hsub hs), fun e he => h.2 e (hsub he)⟩
  | true =>
    rw [Admits, if_pos rfl] at h ⊢
    exact ⟨fun s hs => h.1 s (hsub hs), fun e he => h.2 e (hsub he)⟩

/-- **A range is answered exactly for every content when its limit is 0, or its bounds that are not
truthy keep out no key that the others admit.** -/
theorem yieldsExactly_iff [Nonempty V] (truthy : K → Bool) (name : String) (range : Range K) :
    (∀ db : Database K V, Exact truthy name db range) ↔ range.limit = some 0 ∨
      ∀ key, Admits range.reverse (range.start.filter truthy) (range.end'.filter truthy) key →
        Admits range.reverse range.start range.end' key := by
  constructor
  · intro h
    by_contra hnot
    rw [not_or] at hnot
    obtain ⟨hlimit, hadmits⟩ := hnot
    push Not at hadmits
    obtain ⟨key, hin, hout⟩ := hadmits
    obtain ⟨value⟩ := ‹Nonempty V›
    -- a map with this key alone
    have hexact := (h ⟨[⟨name, key, value⟩], List.pairwise_singleton _ _⟩).1
    have hcontents : contents name (⟨[⟨name, key, value⟩], List.pairwise_singleton _ _⟩ :
        Database K V) range.reverse = [(key, value)] := by
      rw [contents]
      cases range.reverse <;> simp
    rw [entries_eq, hcontents, List.filter_singleton, List.filter_singleton] at hexact
    simp only [hin, hout, decide_true, decide_false, cond_true, cond_false] at hexact
    cases hl : range.limit with
    | none => simp [hl, limited] at hexact
    | some n =>
      cases n with
      | zero => exact hlimit hl
      | succ n => simp [hl, limited] at hexact
  · intro h db
    refine ⟨?_, entries_sorted truthy name db range⟩
    rw [entries_eq]
    obtain hlimit | hadmits := h
    · rw [hlimit]
      rfl
    · congr 2
      funext e
      exact decide_eq_decide.2 ⟨hadmits e.1, admits_filter⟩

theorem yieldsExactly_iff_five :
    (∀ db : Database ℤ ℕ, Exact (fun k => k ≠ 0) "m" db ⟨some 5, none, true, some 1⟩) ↔
      some 1 = some 0 ∨ ∀ key : ℤ,
        Admits true ((some 5).filter fun k => k ≠ 0) ((none : Option ℤ).filter fun k => k ≠ 0) key →
          Admits true (some 5) none key :=
  yieldsExactly_iff (fun k : ℤ => k ≠ 0) "m" ⟨some 5, none, true, some 1⟩

/-- A map with the key 5, up to the key 0. -/
theorem not_yieldsExactly : ¬Exact (fun k : ℤ => k ≠ 0) "m"
    ⟨[⟨"m", 5, ()⟩], List.pairwise_singleton _ _⟩ ⟨none, some 0, false, none⟩ :=
  fun h => absurd h.1 (by decide)

end LmdbMap
