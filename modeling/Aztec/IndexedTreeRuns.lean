/-
**The indexed tree over whole runs.**

After `init` the tree is used by `batchInsert`, `commit` and `rollback`, in any order.  A `World` is
a tree together with the keys it should have: with the uncommitted changes and without.
-/

import Aztec.IndexedTreeBatch

open LinkedLeaves IndexedTreeLeaf

namespace StandardIndexedTree

variable {Buffer Leaf : Type} [IndexedTreeLeaf Leaf] {depth : ℕ}

/-! ### The tree after init -/

section Init

variable {prefilledSize : ℕ}

theorem length_prefilled : (prefilled prefilledSize : List (Preimage Leaf)).length = prefilledSize := by
  simp [prefilled]

theorem getElem?_prefilled (i : ℕ) : (prefilled prefilledSize : List (Preimage Leaf))[i]? =
    if i < prefilledSize then
      some (if i = prefilledSize - 1 then ⟨buildDummy i, 0, 0⟩ else ⟨buildDummy i, i + 1, i + 1⟩)
    else none := by
  rw [prefilled, List.getElem?_map]
  split
  · next hi => rw [List.getElem?_range hi, Option.map_some]
  · next hi => rw [List.getElem?_eq_none (by simpa using hi), Option.map_none]

theorem getKey_prefilled {i : ℕ} {p : Preimage Leaf}
    (hp : (prefilled prefilledSize)[i]? = some p) : i < prefilledSize ∧ p.getKey = i := by
  rw [getElem?_prefilled] at hp
  split at hp
  · next hi =>
    rw [Option.some.injEq] at hp
    subst hp
    refine ⟨hi, ?_⟩
    split
    · exact getKey_buildDummy i
    · exact getKey_buildDummy i
  · cases hp

theorem isList_prefilled (hpos : 1 ≤ prefilledSize) :
    IsList (fun i => (prefilled prefilledSize : List (Preimage Leaf))[i]?)
      (Finset.range prefilledSize) := by
  set view : ℕ → Option (Preimage Leaf) := fun i => (prefilled prefilledSize)[i]? with hview
  have hfirst : (view 0).isSome := by
    rw [hview]
    simpa [getElem?_prefilled] using Nat.pos_of_ne_zero (by omega)
  have hcell : ∀ {i c}, cells view i = some c ↔ i < prefilledSize ∧
      c = if i = prefilledSize - 1 then ⟨i, 0, 0⟩ else ⟨i, i + 1, i + 1⟩ := by
    intro i c
    constructor
    · intro hc
      obtain ⟨p, hp, -, rfl⟩ := cells_eq_some hfirst hc
      have hi := (getKey_prefilled hp).1
      simp only [hview, getElem?_prefilled, if_pos hi, Option.some.injEq] at hp
      refine ⟨hi, ?_⟩
      subst hp
      split
      · simp [Preimage.cell, getKey_buildDummy]
      · simp [Preimage.cell, getKey_buildDummy]
    · rintro ⟨hi, rfl⟩
      have hp : view i = some (if i = prefilledSize - 1 then ⟨buildDummy i, 0, 0⟩
          else ⟨buildDummy i, i + 1, i + 1⟩) := by
        simp only [hview, getElem?_prefilled, if_pos hi]
      have hin : InList i (if i = prefilledSize - 1 then ⟨buildDummy i, 0, 0⟩
          else ⟨buildDummy i, i + 1, i + 1⟩ : Preimage Leaf) := by
        rw [InList, (getKey_prefilled hp).2]
        exact eq_or_ne i 0
      rw [cells_eq_cell hp hin]
      split
      · simp [Preimage.cell, getKey_buildDummy]
      · simp [Preimage.cell, getKey_buildDummy]
  have hkey : ∀ {i c}, cells view i = some c → i < prefilledSize ∧ c.key = i := by
    intro i c hc
    obtain ⟨hi, rfl⟩ := hcell.1 hc
    refine ⟨hi, ?_⟩
    split
    · rfl
    · rfl
  refine ⟨hfirst, ⟨?_, ?_, ?_⟩, ?_⟩
  · exact ⟨_, hcell.2 ⟨hpos, rfl⟩, (hkey (hcell.2 ⟨hpos, rfl⟩)).2⟩
  · intro i j c d hc hd heq
    rw [← (hkey hc).2, ← (hkey hd).2, heq]
  · intro i c hc
    obtain ⟨hi, rfl⟩ := hcell.1 hc
    by_cases hlast : i = prefilledSize - 1
    · rw [if_pos hlast]
      refine .inl ⟨⟨rfl, rfl⟩, fun hd => ?_⟩
      obtain ⟨hj, hdkey⟩ := hkey hd
      rw [hdkey]
      change _ ≤ i
      omega
    · rw [if_neg hlast]
      have hnext : i + 1 < prefilledSize := by omega
      refine .inr ⟨Nat.lt_succ_self i, ⟨_, hcell.2 ⟨hnext, rfl⟩, ?_⟩, fun hd hlt => hlt⟩
      exact (hkey (hcell.2 ⟨hnext, rfl⟩)).2
  · ext k
    simp only [Finset.coe_range, Set.mem_Iio]
    constructor
    · rintro ⟨i, c, hc, rfl⟩
      rw [(hkey hc).2]
      exact (hkey hc).1
    · intro hk
      exact ⟨k, _, hcell.2 ⟨hk, rfl⟩, (hkey (hcell.2 ⟨hk, rfl⟩)).2⟩

variable (H : Hasher Buffer Leaf)

theorem init_eq (hpos : 1 ≤ prefilledSize) (hfits : prefilledSize ≤ 2 ^ depth) :
    ∃ t : StandardIndexedTree Buffer Leaf depth, (new H depth).init H prefilledSize = .ok t ∧
      Indexed t ∧ IsList t.visible (Finset.range prefilledSize) ∧
        IsList t.leaves (Finset.range prefilledSize) ∧ t.leafIndex 0 = some 0 ∧
          ∃ base, (TreeBase.new H.hash H.zero depth).appendLeaves H.hash H.zero
            ((prefilled prefilledSize).map fun p => encodeLeaf H p true) = .ok base ∧
              t.toTreeBase = base.commit := by
  have hroom : (new H depth : StandardIndexedTree Buffer Leaf depth).getNumLeaves true +
      (prefilled prefilledSize : List (Preimage Leaf)).length ≤ 2 ^ depth := by
    rw [length_prefilled]
    change 0 + prefilledSize ≤ _
    omega
  obtain ⟨t, ht, hindexed, -, hvisible, -, hbase⟩ :=
    (indexed_new H depth).encodeAndAppendLeaves H (prefilled prefilledSize) true hroom
  have hview : t.visible = fun i => (prefilled prefilledSize)[i]? := by
    rw [hvisible]
    funext i
    change (if 0 ≤ i then ((prefilled prefilledSize)[i - 0]?).or none else none) = _
    rw [if_pos (Nat.zero_le i), Nat.sub_zero, Option.or_none]
  refine ⟨t.commit, ?_, hindexed.commit, ?_, ?_, ?_, t.toTreeBase, hbase, toTreeBase_commit t⟩
  · rw [init, if_neg (by omega), ht]
  · rw [visible_commit, hview]
    exact isList_prefilled hpos
  · rw [leaves_commit, hview]
    exact isList_prefilled hpos
  · -- the index of key zero is that of a leaf with key zero
    have hlist : IsList t.commit.leaves (Finset.range prefilledSize) := by
      rw [leaves_commit, hview]
      exact isList_prefilled hpos
    obtain ⟨i, hi⟩ := Option.isSome_iff_exists.1 (hindexed.commit.zero_isSome hlist)
    obtain ⟨p, hp, hkey⟩ := hindexed.commit.index_some hi
    rw [leaves_commit, hview] at hp
    rw [hi, ← (getKey_prefilled hp).2, hkey]

end Init

/-! ### Runs -/

/-- What is done with a tree after `init`. -/
inductive Action (Leaf : Type)
  | batchInsert (leaves : List Leaf) (subtreeHeight : ℕ)
  | commit
  | rollback

/-- A tree with the keys it should have, and those it should have after a rollback. -/
structure World (Buffer Leaf : Type) (depth : ℕ) where
  tree : StandardIndexedTree Buffer Leaf depth
  keys : Finset ℕ
  committedKeys : Finset ℕ

namespace World

variable (H : Hasher Buffer Leaf)

/-- One action.  A batch that is given up adds no keys. -/
def step (w : World Buffer Leaf depth) : Action Leaf → World Buffer Leaf depth
  | .batchInsert leaves subtreeHeight =>
    let (tree, outcome) := w.tree.batchInsert H leaves subtreeHeight
    let keys := match outcome with
      | .ok _ => w.keys ∪ newKeys leaves
      | .error _ => w.keys
    { w with tree := tree, keys := keys }
  | .commit => { w with tree := w.tree.commit, committedKeys := w.keys }
  | .rollback => { w with tree := w.tree.rollback, keys := w.committedKeys }

/-- The tree after `init`, with the prefilled keys. -/
def start (depth prefilledSize : ℕ) : Except String (World Buffer Leaf depth) :=
  ((new H depth).init H prefilledSize).map fun t =>
    ⟨t, Finset.range prefilledSize, Finset.range prefilledSize⟩

def run (w : World Buffer Leaf depth) (actions : List (Action Leaf)) : World Buffer Leaf depth :=
  actions.foldl (step H) w

/-- A batch fits into the tree, and no key other than zero occurs twice in it. -/
def Admissible (w : World Buffer Leaf depth) : Action Leaf → Prop
  | .batchInsert leaves _ =>
    w.tree.getNumLeaves true + leaves.length ≤ 2 ^ depth ∧
      (leaves.filterMap fun leaf =>
        if isEmpty leaf ∨ getKey leaf = 0 then none else some (getKey leaf)).Nodup
  | _ => True

/-- No key zero other than the first one is committed, and in a batch no new key comes, in
decreasing order of the keys, before the first rejected leaf. -/
def Clean (w : World Buffer Leaf depth) : Action Leaf → Prop
  | .batchInsert leaves _ => ∀ before leaf after,
      (sortedDescendingLeafTuples leaves).map Prod.fst = before ++ leaf :: after →
        NoneRejected w.keys before → Rejected w.keys before leaf → newKeys before ⊆ w.keys
  | .commit => ∀ i p, w.tree.cachedLeafPreimages.get i = some p → p.getKey = 0 → i = 0
  | .rollback => True

/-- The property holds of every action of a run, in the state it is taken in. -/
def Along (P : World Buffer Leaf depth → Action Leaf → Prop) :
    World Buffer Leaf depth → List (Action Leaf) → Prop
  | _, [] => True
  | w, action :: actions => P w action ∧ Along P (step H w action) actions

/-- **The visible preimages form one sorted list.**  Following the pointers from the leaf at index
`0` one meets the keys the tree should have in increasing order, and the search finds, for every
key, the place in the list of the greatest key up to it. -/
def Sorted (w : World Buffer Leaf depth) : Prop :=
  ∃ path, Follows (fun i => (w.tree.visible i).map Preimage.cell) 0 path ∧
    path.map Prod.snd = w.keys.sort (· ≤ ·) ∧
      ∀ k, ∃ e ∈ path, e.2 ≤ k ∧ (∀ e' ∈ path, e'.2 ≤ k → e'.2 ≤ e.2) ∧
        w.tree.findIndexOfPreviousKey k true = some (e.1, decide (e.2 = k))

structure Inv (w : World Buffer Leaf depth) : Prop where
  indexed : Indexed w.tree
  visible : IsList w.tree.visible w.keys
  stored : IsList w.tree.leaves w.committedKeys
  zero : w.tree.leafIndex 0 = some 0

variable {H} {w : World Buffer Leaf depth}

theorem Inv.sorted (h : Inv w) : Sorted w := by
  obtain ⟨path, hpath, hsort, hmem⟩ := h.visible.follows
  refine ⟨path, hpath, hsort, fun k => ?_⟩
  obtain ⟨i, p, hp, hle, hmax, hzero, hfind⟩ :=
    h.indexed.findIndexOfPreviousKey_eq (h.indexed.zero_isSome h.stored) k
  have hin : InList i p := by
    by_cases hkey : p.getKey = 0
    · have hi := hzero hkey
      rw [h.zero] at hi
      exact .inl (Option.some.inj hi).symm
    · exact .inr hkey
  have hpk : p.getKey ∈ path.map Prod.snd := by
    rw [hsort, Finset.mem_sort]
    exact h.visible.getKey_mem hp
  obtain ⟨e, he, heq⟩ := List.mem_map.1 hpk
  obtain ⟨q, hq, hinq, hqkey⟩ := hmem e he
  have hi : e.1 = i := h.visible.unique hq hinq hp hin (hqkey.trans heq)
  refine ⟨e, he, heq ▸ hle, fun e' he' hle' => ?_, ?_⟩
  · obtain ⟨q', hq', -, hkey'⟩ := hmem e' he'
    rw [heq, ← hkey']
    exact hmax _ _ hq' (hkey' ▸ hle')
  · rw [hfind, hi, heq]

theorem Inv.step (h : Inv w) {action : Action Leaf} (hadmissible : Admissible w action)
    (hclean : Clean w action) : Inv (step H w action) := by
  cases action with
  | batchInsert leaves subtreeHeight =>
    obtain ⟨t', outcome, hbatch, hindexed, hsame, hcases⟩ :=
      batchInsert_cases H h.indexed h.visible (h.indexed.zero_isSome h.stored) (.inl h.zero)
        hadmissible.1 subtreeHeight
    have hstored : IsList t'.leaves w.committedKeys := hsame.leaves_eq ▸ h.stored
    have hzero : t'.leafIndex 0 = some 0 := hsame.leafIndex_eq ▸ h.zero
    simp only [World.step, hbatch]
    rcases hcases with ⟨⟨result, rfl⟩, hlist⟩ | ⟨⟨msg, rfl⟩, before, leaf, after, hsplit,
      hnone, hrejected, hlist⟩
    · exact ⟨hindexed, hlist, hstored, hzero⟩
    · exact ⟨hindexed, hlist (hclean before leaf after hsplit hnone hrejected), hstored, hzero⟩
  | commit =>
    refine ⟨h.indexed.commit, ?_, ?_, ?_⟩
    · exact (visible_commit w.tree).symm ▸ h.visible
    · exact (leaves_commit w.tree).symm ▸ h.visible
    · change w.tree.commit.leafIndex 0 = some 0
      rcases leafIndex_commit w.tree 0 with ⟨hsame, -⟩ | ⟨i, p, hp, hkey, hsome⟩
      · rw [hsame, h.zero]
      · rw [hsome, hclean i p hp hkey]
  | rollback =>
    exact ⟨h.indexed.rollback, (visible_rollback w.tree).symm ▸ h.stored, h.stored, h.zero⟩

theorem Inv.run {actions : List (Action Leaf)} (h : Inv w)
    (halong : Along H (fun w action => Admissible w action ∧ Clean w action) w actions) :
    Inv (run H w actions) := by
  induction actions generalizing w with
  | nil => exact h
  | cons action actions ih => exact ih (h.step halong.1.1 halong.1.2) halong.2

theorem start_inv {prefilledSize : ℕ} (hpos : 1 ≤ prefilledSize)
    (hfits : prefilledSize ≤ 2 ^ depth) :
    ∃ w : World Buffer Leaf depth, start H depth prefilledSize = .ok w ∧ Inv w ∧
      w.keys = Finset.range prefilledSize := by
  obtain ⟨t, ht, hindexed, hvisible, hstored, hzero, -⟩ := init_eq H hpos hfits
  exact ⟨_, by rw [start, ht]; rfl, ⟨hindexed, hvisible, hstored, hzero⟩, rfl⟩

/-- **The list is sorted in every state of a clean run**: whatever batches are inserted, committed
and rolled back after `init`, as long as no key zero other than the first is committed and no batch
is given up after a new key has been linked in. -/
theorem sorted_of_clean (H : Hasher Buffer Leaf) (depth prefilledSize : ℕ)
    (hpos : 1 ≤ prefilledSize) (hfits : prefilledSize ≤ 2 ^ depth) :
    ∃ w : World Buffer Leaf depth, start H depth prefilledSize = .ok w ∧
      ∀ actions : List (Action Leaf),
        Along H (fun w action => Admissible w action ∧ Clean w action) w actions →
          Sorted (run H w actions) := by
  obtain ⟨w, hstart, hinv, -⟩ : ∃ w : World Buffer Leaf depth,
    start H depth prefilledSize = .ok w ∧ Inv w ∧ w.keys = Finset.range prefilledSize :=
      start_inv hpos hfits
  exact ⟨w, hstart, fun actions halong => (hinv.run halong).sorted⟩

/-- A batch with one leaf, and a commit. -/
theorem sorted_of_clean_five :
    ∃ w : World ℕ NullifierLeaf 3, start ⟨fun a b => a + b, Preimage.getKey, 0⟩ 3 2 = .ok w ∧
      Sorted (run ⟨fun a b => a + b, Preimage.getKey, 0⟩ w [.batchInsert [⟨5⟩] 1, .commit]) := by
  obtain ⟨w, hstart, hsorted⟩ :=
    sorted_of_clean (⟨fun a b => a + b, Preimage.getKey, 0⟩ : Hasher ℕ NullifierLeaf) 3 2
      (by decide) (by decide)
  have hrun : ∀ w ∈ (start ⟨fun a b => a + b, Preimage.getKey, 0⟩ 3 2 :
      Except String (World ℕ NullifierLeaf 3)).toOption,
      w.tree.getNumLeaves true = 2 ∧
        ∀ e ∈ (step ⟨fun a b => a + b, Preimage.getKey, 0⟩ w
          (.batchInsert [⟨5⟩] 1)).tree.cachedLeafPreimages.entries,
          e.2.getKey = 0 → e.1 = 0 := by
    decide
  obtain ⟨hnum, hcached⟩ := hrun w (by rw [hstart]; rfl)
  refine ⟨w, hstart, hsorted _ ⟨⟨⟨by rw [hnum]; decide, by decide⟩, ?_⟩, ⟨trivial, ?_⟩, trivial⟩⟩
  · intro before leaf after hsplit _ _
    cases before with
    | nil => simp [newKeys]
    | cons b before =>
      have hlength := congrArg List.length hsplit
      simp [sortedDescendingLeafTuples] at hlength
  · intro i p hp
    exact hcached (i, p) (PropertyMap.mem_entries_iff.2 hp)

/-- **The list is not sorted in general**: when a batch with an empty leaf is committed, key zero is
found at the place of the empty leaf. -/
theorem not_sorted : ¬∀ (H : Hasher ℕ NullifierLeaf) (depth prefilledSize : ℕ), 1 ≤ prefilledSize →
      prefilledSize ≤ 2 ^ depth →
        ∃ w : World ℕ NullifierLeaf depth, start H depth prefilledSize = .ok w ∧
          ∀ actions : List (Action NullifierLeaf), Along H Admissible w actions →
            Sorted (run H w actions) := by
  intro h
  obtain ⟨w, hstart, hsorted⟩ :=
    h ⟨fun a b => a + b, Preimage.getKey, 0⟩ 3 2 (by decide) (by decide)
  have hrun : ∀ w ∈ (start ⟨fun a b => a + b, Preimage.getKey, 0⟩ 3 2 :
      Except String (World ℕ NullifierLeaf 3)).toOption,
      (w.tree.getNumLeaves true = 2 ∧
        (run ⟨fun a b => a + b, Preimage.getKey, 0⟩ w
          [.batchInsert [⟨5⟩, ⟨0⟩] 1, .commit]).tree.findIndexOfPreviousKey 0 true = some (3, true)) ∧
        ((run ⟨fun a b => a + b, Preimage.getKey, 0⟩ w
          [.batchInsert [⟨5⟩, ⟨0⟩] 1, .commit]).tree.visible 0).map Preimage.getKey = some 0 := by
    decide
  obtain ⟨⟨hnum, hfind⟩, hzero⟩ := hrun w (by rw [hstart]; rfl)
  obtain ⟨path, hpath, hsort, hsearch⟩ := hsorted [.batchInsert [⟨5⟩, ⟨0⟩] 1, .commit]
    ⟨⟨by rw [hnum]; decide, by decide⟩, trivial, trivial⟩
  -- the list starts at index zero, and the search finds key zero elsewhere
  obtain ⟨c, hc, hhead⟩ := hpath.head_eq
  obtain ⟨p, hp, rfl⟩ := Option.map_eq_some_iff.1 hc
  rw [hp, Option.map_some, Option.some.injEq] at hzero
  obtain ⟨e, he, hle, -, hfound⟩ := hsearch 0
  rw [hfind, Option.some.injEq, Prod.mk.injEq] at hfound
  have hnodup : (path.map Prod.snd).Nodup := hsort ▸ Finset.sort_nodup _ _
  have heq := List.inj_on_of_nodup_map hnodup (List.mem_of_mem_head? hhead) he
    (hzero.trans (Nat.le_zero.1 hle).symm)
  have hindex : 3 = 0 := by rw [← heq] at hfound; exact hfound.1
  exact absurd hindex (by decide)

end World

end StandardIndexedTree
