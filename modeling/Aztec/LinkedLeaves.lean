/-
**Sorted linked lists laid out in a table.**

The leaves of an indexed tree form a linked list: a cell has a key, and carries the key and the
position of the cell with the next greater key.  The cells are found in a table, the list starts
at position `0` with the least key, and the last cell points back to position `0` with the least
key as its next key.
-/

import Mathlib.Tactic

open Function Finset

namespace LinkedLeaves

variable {κ : Type*}

/-! ### Cells -/

/-- A cell: its own key, and the key and the position of the next cell. -/
@[ext] structure Cell (κ : Type*) where
  key : κ
  nextKey : κ
  nextIndex : ℕ
deriving DecidableEq

def Cell.pointingTo (c : Cell κ) (k : κ) (j : ℕ) : Cell κ := { c with nextKey := k, nextIndex := j }

def Cell.withKey (c : Cell κ) (k : κ) : Cell κ := { c with key := k }

section

variable (c : Cell κ) (k : κ)
include c k

@[simp] theorem Cell.key_pointingTo (j : ℕ) : (c.pointingTo k j).key = c.key := rfl

@[simp] theorem Cell.nextKey_pointingTo (j : ℕ) : (c.pointingTo k j).nextKey = k := rfl

@[simp] theorem Cell.nextIndex_pointingTo (j : ℕ) : (c.pointingTo k j).nextIndex = j := rfl

@[simp] theorem Cell.key_withKey : (c.withKey k).key = k := rfl

@[simp] theorem Cell.nextKey_withKey : (c.withKey k).nextKey = c.nextKey := rfl

@[simp] theorem Cell.nextIndex_withKey : (c.withKey k).nextIndex = c.nextIndex := rfl

end

abbrev Table (κ : Type*) := ℕ → Option (Cell κ)

def keys (T : Table κ) : Set κ := {k | ∃ i c, T i = some c ∧ c.key = k}

variable {T : Table κ} {i j : ℕ} {c : Cell κ} {k : κ}

theorem mem_keys (hc : T i = some c) : c.key ∈ keys T := ⟨i, c, hc, rfl⟩

/-! ### Insertion -/

/-- The table with the key `k` linked in at position `j`, behind the cell `c` at position `i`. -/
def insertAt (T : Table κ) (i : ℕ) (c : Cell κ) (j : ℕ) (k : κ) : Table κ :=
  Function.update (Function.update T i (some (c.pointingTo k j))) j
    (some (c.withKey k))

theorem insertAt_self : insertAt T i c j k j = some (c.withKey k) := by
  simp [insertAt]

theorem insertAt_low (hne : i ≠ j) : insertAt T i c j k i = some (c.pointingTo k j) := by
  simp [insertAt, hne]

variable {m : ℕ} {d : Cell κ} {path : List (ℕ × κ)} {K : Finset κ}

theorem insertAt_of_ne (hi : m ≠ i) (hj : m ≠ j) : insertAt T i c j k m = T m := by
  simp [insertAt, hi, hj]

theorem insertAt_cases (hne : i ≠ j) (hd : insertAt T i c j k m = some d) :
    (m = j ∧ d = c.withKey k) ∨ (m = i ∧ d = c.pointingTo k j) ∨
      (m ≠ i ∧ m ≠ j ∧ T m = some d) := by
  rcases eq_or_ne m j with rfl | hj
  · rw [insertAt_self] at hd
    exact .inl ⟨rfl, (Option.some.inj hd).symm⟩
  · rcases eq_or_ne m i with rfl | hi
    · rw [insertAt_low hne] at hd
      exact .inr (.inl ⟨rfl, (Option.some.inj hd).symm⟩)
    · exact .inr (.inr ⟨hi, hj, by rwa [insertAt_of_ne hi hj] at hd⟩)

theorem exists_insertAt (hc : T i = some c) (hj : T j = none) (hd : T m = some d) :
    ∃ e, insertAt T i c j k m = some e ∧ e.key = d.key := by
  have hne : i ≠ j := by rintro rfl; simp [hc] at hj
  have hmj : m ≠ j := by rintro rfl; simp [hd] at hj
  rcases eq_or_ne m i with rfl | hi
  · obtain rfl : c = d := Option.some.inj (hc.symm.trans hd)
    exact ⟨_, insertAt_low hne, rfl⟩
  · exact ⟨d, by rw [insertAt_of_ne hi hmj, hd], rfl⟩

theorem keys_insertAt (hc : T i = some c) (hj : T j = none) :
    keys (insertAt T i c j k) = insert k (keys T) := by
  have hne : i ≠ j := by rintro rfl; simp [hc] at hj
  ext k'
  constructor
  · rintro ⟨m, d, hd, rfl⟩
    rcases insertAt_cases hne hd with ⟨-, rfl⟩ | ⟨-, rfl⟩ | ⟨-, -, hd⟩
    · exact .inl rfl
    · exact .inr (mem_keys (c := c) hc)
    · exact .inr (mem_keys hd)
  · rintro (rfl | ⟨m, d, hd, rfl⟩)
    · exact mem_keys (c := c.withKey k') insertAt_self
    · obtain ⟨e, he, hkey⟩ := exists_insertAt hc hj hd
      exact hkey ▸ mem_keys he

/-! ### The invariant -/

variable [LinearOrder κ] [OrderBot κ]

def Cell.IsLast (c : Cell κ) : Prop := c.nextIndex = 0 ∧ c.nextKey = ⊥

def InGap (c : Cell κ) (k : κ) : Prop := c.key < k ∧ (k < c.nextKey ∨ c.IsLast)

/-- **The invariant of the list.**  The list starts at position `0` with the least key, no key
occurs twice, and every cell either is last in the order and points nowhere, or points to a cell
with a greater key, the next one in the order. -/
structure Linked (T : Table κ) : Prop where
  head : ∃ c, T 0 = some c ∧ c.key = ⊥
  unique : ∀ {i j c d}, T i = some c → T j = some d → c.key = d.key → i = j
  next : ∀ {i c}, T i = some c →
    (c.IsLast ∧ ∀ {j d}, T j = some d → d.key ≤ c.key) ∨
      (c.key < c.nextKey ∧ (∃ d, T c.nextIndex = some d ∧ d.key = c.nextKey) ∧
        ∀ {j d}, T j = some d → c.key < d.key → c.nextKey ≤ d.key)

section

variable (h : Linked T)
include h

theorem Linked.bot_mem : ⊥ ∈ keys T := by
  obtain ⟨c, hc, hkey⟩ := h.head
  exact ⟨0, c, hc, hkey⟩

variable {c : Cell κ} {i : ℕ}

theorem Linked.eq_zero_of_bot (hc : T i = some c) (hkey : c.key = ⊥) :
    i = 0 := by
  obtain ⟨d, hd, hbot⟩ := h.head
  exact h.unique hc hd (hkey.trans hbot.symm)

theorem Linked.eq_zero_of_head (hc : T 0 = some c) (hlast : c.IsLast) (hd : T i = some d) : i = 0 := by
  obtain ⟨c', hc', hbot⟩ := h.head
  obtain rfl : c = c' := Option.some.inj (hc.symm.trans hc')
  rcases h.next hc with ⟨-, hle⟩ | ⟨hlt, -⟩
  · exact h.eq_zero_of_bot hd (le_bot_iff.1 (hbot ▸ hle hd))
  · exact absurd (hlast.2 ▸ hlt) not_lt_bot

theorem Linked.le_of_isLast {i j : ℕ} (hc : T i = some c) (hlast : c.IsLast)
    (hd : T j = some d) : d.key ≤ c.key := by
  rcases h.next hc with ⟨-, hle⟩ | ⟨hlt, -⟩
  · exact hle hd
  · exact absurd (hlast.2 ▸ hlt) not_lt_bot

theorem Linked.lt_of_inGap {i j : ℕ} {k : κ} (hc : T i = some c) (hgap : InGap c k)
    (hd : T j = some d) (hlt : c.key < d.key) : k < d.key := by
  rcases hgap.2 with hk | hlast
  · rcases h.next hc with ⟨hlast, hle⟩ | ⟨-, -, hnext⟩
    · exact absurd (hle hd) (not_le.2 hlt)
    · exact hk.trans_le (hnext hd hlt)
  · exact absurd (h.le_of_isLast hc hlast hd) (not_le.2 hlt)

theorem Linked.notMem_of_inGap {k : κ} (hc : T i = some c) (hgap : InGap c k) :
    k ∉ keys T := by
  rintro ⟨j, d, hd, rfl⟩
  exact lt_irrefl _ (h.lt_of_inGap hc hgap hd hgap.1)

theorem Linked.inGap_of_greatest {k : κ} (hc : T i = some c) (hlt : c.key < k)
    (hgreatest : ∀ {j d}, T j = some d → d.key ≤ k → d.key ≤ c.key) : InGap c k := by
  refine ⟨hlt, ?_⟩
  rcases h.next hc with ⟨hlast, -⟩ | ⟨hnext, ⟨d, hd, hkey⟩, -⟩
  · exact .inr hlast
  · refine .inl (not_le.1 fun hle => ?_)
    exact absurd (hgreatest hd (hkey ▸ hle)) (not_le.2 (hkey ▸ hnext))

theorem Linked.insertAt (hc : T i = some c) (hgap : InGap c k) (hj : T j = none) :
    Linked (insertAt T i c j k) := by
  have hne : i ≠ j := by rintro rfl; simp [hc] at hj
  have hfresh : ∀ {m d}, T m = some d → d.key ≠ k := fun hd hkey =>
    h.notMem_of_inGap hc hgap (hkey ▸ mem_keys hd)
  -- above the new key there are only the keys above the old cell
  have habove : ∀ {m d}, LinkedLeaves.insertAt T i c j k m = some d → c.key < d.key →
      k ≤ d.key := fun hd hlt => by
    rcases insertAt_cases hne hd with ⟨-, rfl⟩ | ⟨-, rfl⟩ | ⟨-, -, hd⟩
    · exact le_rfl
    · exact absurd hlt (lt_irrefl _)
    · exact (h.lt_of_inGap hc hgap hd hlt).le
  refine ⟨?_, ?_, ?_⟩
  · obtain ⟨d, hd, hbot⟩ := h.head
    obtain ⟨e, he, hkey⟩ := exists_insertAt hc hj hd
    exact ⟨e, he, hkey.trans hbot⟩
  · intro m m' d d' hd hd' hkey
    rcases insertAt_cases hne hd with ⟨hm, rfl⟩ | ⟨hm, rfl⟩ | ⟨-, -, hold⟩ <;>
      rcases insertAt_cases hne hd' with ⟨hm', rfl⟩ | ⟨hm', rfl⟩ | ⟨-, -, hold'⟩
    · rw [hm, hm']
    · exact absurd hkey.symm (hfresh (d := c) hc)
    · exact absurd hkey.symm (hfresh hold')
    · exact absurd hkey (hfresh (d := c) hc)
    · rw [hm, hm']
    · rw [hm]; exact h.unique hc hold' hkey
    · exact absurd hkey (hfresh hold)
    · rw [hm']; exact h.unique hold hc hkey
    · exact h.unique hold hold' hkey
  · intro m d hd
    rcases insertAt_cases hne hd with ⟨rfl, rfl⟩ | ⟨rfl, rfl⟩ | ⟨hmi, hmj, hd⟩
    · -- the new cell points where the old one did
      rcases h.next hc with ⟨hlast, hle⟩ | ⟨hlt, ⟨e, he, hkey⟩, hnext⟩
      · refine .inl ⟨hlast, fun hd' => ?_⟩
        rcases insertAt_cases hne hd' with ⟨-, rfl⟩ | ⟨-, rfl⟩ | ⟨-, -, hd'⟩
        · exact le_rfl
        · exact hgap.1.le
        · exact (hle hd').trans hgap.1.le
      · have hk : k < c.nextKey := by
          rcases hgap.2 with hk | hlast
          · exact hk
          · exact absurd (hlast.2 ▸ hlt) not_lt_bot
        obtain ⟨e', he', hkey'⟩ := exists_insertAt (k := k) hc hj he
        refine .inr ⟨hk, ⟨e', he', hkey'.trans hkey⟩, fun hd' hlt' => ?_⟩
        rcases insertAt_cases hne hd' with ⟨-, rfl⟩ | ⟨-, rfl⟩ | ⟨-, -, hd'⟩
        · exact absurd hlt' (lt_irrefl _)
        · exact absurd (hgap.1.trans hlt') (lt_irrefl _)
        · exact hnext hd' (hgap.1.trans hlt')
    · exact .inr ⟨hgap.1, ⟨_, insertAt_self, rfl⟩, habove⟩
    · rcases h.next hd with ⟨hlast, hle⟩ | ⟨hlt, ⟨e, he, hkey⟩, hnext⟩
      · -- the last cell cannot be below the new key, unless it is the old cell
        have hki : d.key ≠ c.key := fun hkey => hmi (h.unique hd hc hkey)
        have hcd : c.key < d.key := lt_of_le_of_ne (hle hc) hki.symm
        refine .inl ⟨hlast, fun hd' => ?_⟩
        rcases insertAt_cases hne hd' with ⟨-, rfl⟩ | ⟨-, rfl⟩ | ⟨-, -, hd'⟩
        · exact (h.lt_of_inGap hc hgap hd hcd).le
        · exact hcd.le
        · exact hle hd'
      · obtain ⟨e', he', hkey'⟩ := exists_insertAt (k := k) hc hj he
        refine .inr ⟨hlt, ⟨e', he', hkey'.trans hkey⟩, fun hd' hlt' => ?_⟩
        rcases insertAt_cases hne hd' with ⟨-, rfl⟩ | ⟨-, rfl⟩ | ⟨-, -, hd'⟩
        · -- the new key is above `d`, hence so is the cell it is linked behind or `d` itself
          rcases lt_trichotomy c.key d.key with hcd | hcd | hcd
          · exact absurd (h.lt_of_inGap hc hgap hd hcd) (not_lt.2 hlt'.le)
          · exact absurd (h.unique hd hc hcd.symm) hmi
          · exact (hnext hc hcd).trans hgap.1.le
        · exact hnext (d := c) hc hlt'
        · exact hnext hd' hlt'

end

/-! ### Following the pointers -/

/-- Following the pointers from position `i`, one meets the positions and keys of `path`. -/
inductive Follows (T : Table κ) : ℕ → List (ℕ × κ) → Prop
  | last {i : ℕ} {c : Cell κ} : T i = some c → c.IsLast → Follows T i [(i, c.key)]
  | next {i : ℕ} {c : Cell κ} {path : List (ℕ × κ)} : T i = some c → c.nextIndex ≠ 0 →
      path.head? = some (c.nextIndex, c.nextKey) → Follows T c.nextIndex path →
      Follows T i ((i, c.key) :: path)

theorem Follows.head_eq {i : ℕ} (h : Follows T i path) :
    ∃ c, T i = some c ∧ path.head? = some (i, c.key) := by
  cases h with
  | last hc _ => exact ⟨_, hc, rfl⟩
  | next hc _ _ _ => exact ⟨_, hc, rfl⟩

theorem Follows.mono {T' : Table κ} (hT : ∀ i c, T i = some c → T' i = some c) {i : ℕ}
    (h : Follows T i path) : Follows T' i path := by
  induction h with
  | last hc hlast => exact .last (hT _ _ hc) hlast
  | next hc hne hhead _ ih => exact .next (hT _ _ hc) hne hhead ih

theorem Follows.exists_of_mem {i : ℕ} (h : Follows T i path) :
    ∀ e ∈ path, ∃ c, T e.1 = some c ∧ c.key = e.2 := by
  induction h with
  | last hc _ =>
    intro e he
    rw [List.mem_singleton.1 he]
    exact ⟨_, hc, rfl⟩
  | next hc _ _ _ ih =>
    intro e he
    rcases List.mem_cons.1 he with rfl | he
    · exact ⟨_, hc, rfl⟩
    · exact ih e he

/-- **The pointers lead through all keys in increasing order.**  From any cell, following the
pointers visits the keys from its own on, each once and in order. -/
theorem Linked.follows_from (h : Linked T) (hK : keys T = K) :
    ∀ (n : ℕ) {i : ℕ} {c : Cell κ}, T i = some c → (K.filter (c.key ≤ ·)).card = n →
      ∃ path, Follows T i path ∧ path.map Prod.snd = (K.filter (c.key ≤ ·)).sort (· ≤ ·) := by
  intro n
  induction n using Nat.strong_induction_on with
  | _ n ih =>
    intro i c hc hn
    have hmem : c.key ∈ K := by rw [← mem_coe, ← hK]; exact mem_keys hc
    rcases h.next hc with ⟨hlast, hle⟩ | ⟨hlt, ⟨d, hd, hkey⟩, hnext⟩
    · have hself : K.filter (c.key ≤ ·) = {c.key} := by
        ext k
        simp only [mem_filter, mem_singleton]
        constructor
        · rintro ⟨hk, hge⟩
          obtain ⟨j, d, hd, rfl⟩ : k ∈ keys T := by rwa [hK, mem_coe]
          exact le_antisymm (hle hd) hge
        · rintro rfl; exact ⟨hmem, le_rfl⟩
      exact ⟨_, .last hc hlast, by rw [hself, sort_singleton]; rfl⟩
    · have hcons : K.filter (c.key ≤ ·) = insert c.key (K.filter (d.key ≤ ·)) := by
        ext k
        simp only [mem_filter, mem_insert]
        constructor
        · rintro ⟨hk, hge⟩
          obtain ⟨j, e, he, rfl⟩ : k ∈ keys T := by rwa [hK, mem_coe]
          rcases hge.eq_or_lt with heq | hgt
          · exact .inl heq.symm
          · exact .inr ⟨hk, hkey ▸ hnext he hgt⟩
        · rintro (rfl | ⟨hk, hge⟩)
          · exact ⟨hmem, le_rfl⟩
          · exact ⟨hk, (hkey ▸ hlt).le.trans hge⟩
      have hnot : c.key ∉ K.filter (d.key ≤ ·) := by
        simp only [mem_filter, not_and, not_le]
        exact fun _ => hkey ▸ hlt
      have hless : (K.filter (d.key ≤ ·)).card < n := by
        rw [← hn, hcons, card_insert_of_notMem hnot]; exact Nat.lt_succ_self _
      obtain ⟨path, hpath, hsort⟩ := ih _ hless hd rfl
      have hzero : c.nextIndex ≠ 0 := by
        intro hzero
        obtain ⟨e, he, hbot⟩ := h.head
        rw [hzero, he, Option.some.injEq] at hd
        subst hd
        rw [← hkey, hbot] at hlt
        exact absurd hlt not_lt_bot
      obtain ⟨d', hd', hhead⟩ := hpath.head_eq
      obtain rfl : d = d' := Option.some.inj (hd.symm.trans hd')
      refine ⟨_, .next hc hzero (by rw [hhead, hkey]) hpath, ?_⟩
      rw [List.map_cons, hsort, hcons, sort_insert]
      · intro k hk
        exact (hkey ▸ hlt).le.trans (mem_filter.1 hk).2
      · exact hnot

theorem Linked.follows (h : Linked T) (hK : keys T = K) :
    ∃ path, Follows T 0 path ∧ path.map Prod.snd = K.sort (· ≤ ·) := by
  obtain ⟨c, hc, hbot⟩ := h.head
  obtain ⟨path, hpath, hsort⟩ := h.follows_from hK _ hc rfl
  have hall : K.filter (c.key ≤ ·) = K :=
    filter_true_of_mem fun k _ => hbot ▸ bot_le
  exact ⟨path, hpath, by rw [hsort, hall]⟩

/-! ### Leaves with data -/

/-- A kind of leaf: the empty leaf, the leaves that are not part of a list, and the cell and the
data the others carry. -/
structure Layout (Leaf κ δ : Type*) [LinearOrder κ] [OrderBot κ] where
  empty : Leaf
  absent : Leaf → Bool
  cell : Leaf → Cell κ
  payload : Leaf → δ
  absent_empty : absent empty = true
  cell_empty : cell empty = ⟨⊥, ⊥, 0⟩

namespace Layout

variable {Leaf δ : Type*} (L : Layout Leaf κ δ)

/-- The list of a sequence of leaves.  The leaf at position `0` is always part of it; when it is the
empty one, the list consists of the least key. -/
def table (leaves : ℕ → Leaf) : Table κ := fun i =>
  if i ≠ 0 ∧ L.absent (leaves i) = true then none else some (L.cell (leaves i))

def IsCell (leaves : ℕ → Leaf) (i : ℕ) : Prop := i = 0 ∨ L.absent (leaves i) = false

def Stores (leaves : ℕ → Leaf) (k : κ) (p : δ) : Prop :=
  ∃ i, L.IsCell leaves i ∧ (L.cell (leaves i)).key = k ∧ L.payload (leaves i) = p

variable {L} {leaves leaves' : ℕ → Leaf} {leaf : Leaf}

theorem ne_empty (h : (L.cell leaf).key ≠ ⊥ ∨ (L.cell leaf).nextKey ≠ ⊥) : leaf ≠ L.empty := by
  rintro rfl
  simp [L.cell_empty] at h

theorem isCell_zero : L.IsCell leaves 0 := .inl rfl

theorem table_of_isCell (h : L.IsCell leaves i) : L.table leaves i = some (L.cell (leaves i)) := by
  rcases h with rfl | h
  · simp [table]
  · simp [table, h]

theorem table_eq_none (hi : i ≠ 0) (h : L.absent (leaves i) = true) : L.table leaves i = none := by
  simp [table, hi, h]

theorem table_eq_some : L.table leaves i = some c ↔ L.IsCell leaves i ∧ L.cell (leaves i) = c := by
  by_cases h : L.IsCell leaves i
  · simp [table_of_isCell h, h]
  · have hnot := h
    simp only [IsCell, not_or, Bool.not_eq_false] at h
    simp [table_eq_none h.1 h.2, hnot]

theorem table_congr (h : leaves i = leaves' i) : L.table leaves i = L.table leaves' i := by
  simp only [table, h]

theorem mem_keys_iff : k ∈ keys (L.table leaves) ↔
    ∃ i, L.IsCell leaves i ∧ (L.cell (leaves i)).key = k := by
  constructor
  · rintro ⟨i, c, hc, hk⟩
    obtain ⟨hi, rfl⟩ := table_eq_some.1 hc
    exact ⟨i, hi, hk⟩
  · rintro ⟨i, hi, hk⟩; exact ⟨i, _, table_of_isCell hi, hk⟩

theorem mem_keys_iff_stores : k ∈ keys (L.table leaves) ↔ ∃ p, L.Stores leaves k p := by
  rw [mem_keys_iff]
  constructor
  · rintro ⟨i, hi, hk⟩; exact ⟨_, i, hi, hk, rfl⟩
  · rintro ⟨p, i, hi, hk, -⟩; exact ⟨i, hi, hk⟩

theorem linked_empty : Linked (L.table fun _ => L.empty) := by
  have honly : ∀ {i c}, L.table (fun _ => L.empty) i = some c → i = 0 ∧ c = ⟨⊥, ⊥, 0⟩ := by
    intro i c hc
    obtain ⟨hi, rfl⟩ := table_eq_some.1 hc
    exact ⟨hi.resolve_right (by simp [L.absent_empty]), L.cell_empty⟩
  refine ⟨⟨_, table_of_isCell isCell_zero, by rw [L.cell_empty]⟩, fun hc hd _ => ?_,
    fun hc => .inl ?_⟩
  · rw [(honly hc).1, (honly hd).1]
  · obtain ⟨-, rfl⟩ := honly hc
    refine ⟨⟨rfl, rfl⟩, fun hd => ?_⟩
    rw [(honly hd).2]

section Link

variable {low new : Leaf}

/-- **Linking in a new leaf.**  A leaf is written to a place where there is none, and linked in
behind the leaf in whose gap its key lies. -/
theorem table_link (hi : L.IsCell leaves i) (hj : j ≠ 0) (hfree : L.absent (leaves j) = true)
    (hgap : InGap (L.cell (leaves i)) k) (hlow : L.cell low = (L.cell (leaves i)).pointingTo k j)
    (hlow' : i = 0 ∨ L.absent low = false) (hnew : L.cell new = (L.cell (leaves i)).withKey k)
    (hnew' : L.absent new = false) :
    i ≠ j ∧ L.table leaves i = some (L.cell (leaves i)) ∧ L.table leaves j = none ∧
      L.table (update (update leaves i low) j new) =
        insertAt (L.table leaves) i (L.cell (leaves i)) j k := by
  have hc := table_of_isCell hi
  have hnone := table_eq_none hj hfree
  have hne : i ≠ j := by rintro rfl; simp [hc] at hnone
  refine ⟨hne, hc, hnone, funext fun m => ?_⟩
  rcases eq_or_ne m j with rfl | hmj
  · rw [insertAt_self, table_of_isCell (.inr (by rwa [update_self])), update_self, hnew]
  · rcases eq_or_ne m i with rfl | hmi
    · have hself : update (update leaves m low) j new m = low := by
        rw [update_of_ne hne, update_self]
      rw [insertAt_low hne, table_of_isCell (by rwa [IsCell, hself]), hself, hlow]
    · rw [insertAt_of_ne hmi hmj]
      exact table_congr (by rw [update_of_ne hmj, update_of_ne hmi])

theorem link (hlinked : Linked (L.table leaves)) (hi : L.IsCell leaves i) (hj : j ≠ 0)
    (hfree : L.absent (leaves j) = true) (hgap : InGap (L.cell (leaves i)) k)
    (hlow : L.cell low = (L.cell (leaves i)).pointingTo k j)
    (hlow' : i = 0 ∨ L.absent low = false) (hkeep : L.payload low = L.payload (leaves i))
    (hnew : L.cell new = (L.cell (leaves i)).withKey k) (hnew' : L.absent new = false) :
    Linked (L.table (update (update leaves i low) j new)) ∧
      ∀ k' p, L.Stores (update (update leaves i low) j new) k' p ↔
        (k' = k ∧ p = L.payload new) ∨ (k' ≠ k ∧ L.Stores leaves k' p) := by
  obtain ⟨hne, hc, hnone, htable⟩ :=
    table_link hi hj hfree hgap hlow hlow' hnew hnew'
  have hfresh := hlinked.notMem_of_inGap hc hgap
  set leaves' := update (update leaves i low) j new with hleaves'
  have hself : leaves' j = new := by simp [hleaves']
  have hselfi : leaves' i = low := by simp [hleaves', hne]
  have hother : ∀ {m}, m ≠ i → m ≠ j → leaves' m = leaves m := fun hmi hmj => by
    simp [hleaves', hmi, hmj]
  refine ⟨htable ▸ hlinked.insertAt hc hgap hnone, fun k' p => ?_⟩
  constructor
  · rintro ⟨m, hm, rfl, rfl⟩
    rcases eq_or_ne m j with rfl | hmj
    · exact .inl ⟨by rw [hself, hnew, Cell.key_withKey], by rw [hself]⟩
    · rcases eq_or_ne m i with rfl | hmi
      · refine .inr ⟨?_, m, hi, ?_, ?_⟩ <;> rw [hselfi]
        · rw [hlow, Cell.key_pointingTo]; exact hgap.1.ne
        · rw [hlow, Cell.key_pointingTo]
        · rw [hkeep]
      · have hcell : L.IsCell leaves m := by rwa [IsCell, hother hmi hmj] at hm
        rw [hother hmi hmj]
        exact .inr ⟨fun hk => hfresh (mem_keys_iff.2 ⟨m, hcell, hk⟩), m, hcell, rfl, rfl⟩
  · rintro (⟨rfl, rfl⟩ | ⟨-, m, hm, rfl, rfl⟩)
    · exact ⟨j, .inr (by rwa [hself]), by rw [hself, hnew, Cell.key_withKey], by rw [hself]⟩
    · have hmj : m ≠ j := by
        rintro rfl
        exact hm.elim hj (by simp [hfree])
      rcases eq_or_ne m i with rfl | hmi
      · exact ⟨m, by rwa [IsCell, hselfi], by rw [hselfi, hlow, Cell.key_pointingTo],
          by rw [hselfi, hkeep]⟩
      · exact ⟨m, by rwa [IsCell, hother hmi hmj], by rw [hother hmi hmj],
          by rw [hother hmi hmj]⟩

theorem overwrite (hlinked : Linked (L.table leaves)) (hi : L.IsCell leaves i)
    (hlow : L.cell low = L.cell (leaves i)) (hlow' : i = 0 ∨ L.absent low = false) :
    L.table (update leaves i low) = L.table leaves ∧ ∀ k' p, L.Stores (update leaves i low) k' p ↔
        (k' = (L.cell (leaves i)).key ∧ p = L.payload low) ∨
          (k' ≠ (L.cell (leaves i)).key ∧ L.Stores leaves k' p) := by
  set leaves' := update leaves i low with hleaves'
  have hself : leaves' i = low := by simp [hleaves']
  have hother : ∀ {m}, m ≠ i → leaves' m = leaves m := fun hmi => by simp [hleaves', hmi]
  refine ⟨funext fun m => ?_, fun k' p => ?_⟩
  · rcases eq_or_ne m i with rfl | hmi
    · rw [table_of_isCell hi, table_of_isCell (by rwa [IsCell, hself]), hself, hlow]
    · exact table_congr (hother hmi)
  · constructor
    · rintro ⟨m, hm, rfl, rfl⟩
      rcases eq_or_ne m i with rfl | hmi
      · exact .inl ⟨by rw [hself, hlow], by rw [hself]⟩
      · have hcell : L.IsCell leaves m := by rwa [IsCell, hother hmi] at hm
        rw [hother hmi]
        refine .inr ⟨fun hk => hmi ?_, m, hcell, rfl, rfl⟩
        exact hlinked.unique (table_of_isCell hcell) (table_of_isCell hi) hk
    · rintro (⟨rfl, rfl⟩ | ⟨hk, m, hm, rfl, rfl⟩)
      · exact ⟨i, by rwa [IsCell, hself], by rw [hself, hlow], by rw [hself]⟩
      · have hmi : m ≠ i := by rintro rfl; exact hk rfl
        exact ⟨m, by rwa [IsCell, hother hmi], by rw [hother hmi], by rw [hother hmi]⟩

end Link

end Layout

end LinkedLeaves
