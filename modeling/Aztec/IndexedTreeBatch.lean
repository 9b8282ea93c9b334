/-
**Batch insertion keeps the list sorted.**

The loop of `batchInsert` changes the leaves that are already in the tree and collects the new ones,
which are appended at the end.  In between the pointers lead to positions that are still to be
filled, so the invariant of the loop speaks of the preimages together with those to come: they form
a sorted list at every turn.  The search only sees the keys that are in the tree; since the batch is
gone through by decreasing key, none of the keys to come is below the one searched for.
-/

import Aztec.Failing
import Aztec.IndexedTreeList

open LinkedLeaves IndexedTreeLeaf Option
open List hiding isEmpty

namespace StandardIndexedTree

variable {Buffer Leaf : Type} [IndexedTreeLeaf Leaf] {depth : ℕ}

/-! ### Batches -/

def newKeys (leaves : List Leaf) : Finset ℕ :=
  ((leaves.filter fun leaf => !isEmpty leaf).map getKey).toFinset

theorem mem_newKeys {leaves : List Leaf} {k : ℕ} :
    k ∈ newKeys leaves ↔ ∃ leaf ∈ leaves, isEmpty leaf = false ∧ getKey leaf = k := by
  simp [newKeys, and_assoc]

theorem newKeys_perm {leaves leaves' : List Leaf} (h : leaves.Perm leaves') :
    newKeys leaves = newKeys leaves' := by
  ext k
  rw [mem_newKeys, mem_newKeys]
  simp only [h.mem_iff]

theorem newKeys_append_of_isEmpty (leaves : List Leaf) {leaf : Leaf} (h : isEmpty leaf = true) :
    newKeys (leaves ++ [leaf]) = newKeys leaves := by
  simp [newKeys, h]

theorem newKeys_append (leaves : List Leaf) {leaf : Leaf} (h : isEmpty leaf = false) :
    newKeys (leaves ++ [leaf]) = insert (getKey leaf) (newKeys leaves) := by
  ext k
  simp only [mem_newKeys, mem_append, mem_singleton, Finset.mem_insert]
  constructor
  · rintro ⟨leaf', hmem | rfl, hne, rfl⟩
    · exact .inr ⟨leaf', hmem, hne, rfl⟩
    · exact .inl rfl
  · rintro (rfl | ⟨leaf', hmem, hne, rfl⟩)
    · exact ⟨leaf, .inr rfl, h, rfl⟩
    · exact ⟨leaf', .inl hmem, hne, rfl⟩

/-- **A leaf at which a batch is given up**, when the tree has the keys `K` and the leaves `before`
are gone through: one with the key of an earlier leaf, or a create-only one with a key of the
tree. -/
def Rejected (K : Finset ℕ) (before : List Leaf) (leaf : Leaf) : Prop :=
  isEmpty leaf = false ∧
    (getKey leaf ∈ newKeys before ∨ (getKey leaf ∈ K ∧ updatable Leaf = false))

/-- No leaf before it is rejected: the loop stops at the first one. -/
def NoneRejected (K : Finset ℕ) (before : List Leaf) : Prop :=
  ∀ b leaf, b ++ [leaf] <+: before → ¬Rejected K b leaf

theorem NoneRejected.concat {K : Finset ℕ} {before : List Leaf} {leaf : Leaf}
    (h : NoneRejected K before) (hleaf : ¬Rejected K before leaf) :
    NoneRejected K (before ++ [leaf]) := by
  intro b l hb
  rcases prefix_concat_iff.1 hb with heq | hb
  · obtain ⟨rfl, hl⟩ := append_inj' heq rfl
    rwa [singleton_inj.1 hl]
  · exact h b l hb

theorem sortedDescendingLeafTuples_perm (leaves : List Leaf) :
    ((sortedDescendingLeafTuples leaves).map Prod.fst).Perm leaves := by
  have h := (perm_insertionSort (fun a b : Leaf × ℕ => getKey b.1 ≤ getKey a.1)
    leaves.zipIdx).map Prod.fst
  rwa [zipIdx_map_fst] at h

theorem sortedDescendingLeafTuples_indexes (leaves : List Leaf) :
    ((sortedDescendingLeafTuples leaves).map Prod.snd).Perm (List.range leaves.length) := by
  have h := (perm_insertionSort (fun a b : Leaf × ℕ => getKey b.1 ≤ getKey a.1)
    leaves.zipIdx).map Prod.snd
  rwa [zipIdx_map_snd, ← range_eq_range'] at h

theorem sortedDescendingLeafTuples_split {leaves : List Leaf} {before after : List (Leaf × ℕ)}
    {leaf : Leaf} {m : ℕ} (h : sortedDescendingLeafTuples leaves = before ++ (leaf, m) :: after) :
    m < leaves.length ∧ m ∉ before.map Prod.snd ∧ ∀ b ∈ before, getKey leaf ≤ getKey b.1 := by
  have hperm := sortedDescendingLeafTuples_indexes leaves
  rw [h] at hperm
  have hnodup := hperm.nodup_iff.2 nodup_range
  rw [map_append, map_cons] at hnodup hperm
  refine ⟨mem_range.1 (hperm.mem_iff.1 (by simp)), fun hm => ?_, fun b hb => ?_⟩
  · exact (nodup_append.1 hnodup).2.2 m hm m mem_cons_self rfl
  · have hpair : (sortedDescendingLeafTuples leaves).Pairwise
        fun a b => getKey b.1 ≤ getKey a.1 := pairwise_insertionSort _ _
    rw [h, pairwise_append] at hpair
    exact hpair.2.2 b hb (leaf, m) mem_cons_self

/-! ### The invariant of the loop -/

section Loop

variable {H : Hasher Buffer Leaf} {t : StandardIndexedTree Buffer Leaf depth} {K : Finset ℕ}
  {n : ℕ} {before : List (Leaf × ℕ)} {s s' : Insertion Buffer Leaf depth}

/-- The preimages with those that are to be appended. -/
def Insertion.preview (s : Insertion Buffer Leaf depth) (start : ℕ) : ℕ → Option (Preimage Leaf) :=
  writePreimages s.tree.visible start s.pendingInsertionSubtree

/-- **The invariant of the loop**, for a batch of `n` leaves and a tree with the keys `K`, when the
leaves `before` are gone through.  No key of the tree has changed its place, the preimages to come
are empty or new, and all together form a sorted list. -/
structure Progress (t : StandardIndexedTree Buffer Leaf depth) (K : Finset ℕ) (n : ℕ)
    (before : List (Leaf × ℕ)) (s : Insertion Buffer Leaf depth) : Prop where
  indexed : Indexed s.tree
  same : SameStores t s.tree
  size_eq : s.tree.getNumLeaves true = t.getNumLeaves true
  same_keys : ∀ i, (s.tree.visible i).map Preimage.getKey = (t.visible i).map Preimage.getKey
  inserted : ∀ k, k ∈ s.insertedKeys ↔ k ∈ newKeys (before.map Prod.fst)
  pending_length : s.pendingInsertionSubtree.length = n
  untouched : ∀ m < n, m ∉ before.map Prod.snd → s.pendingInsertionSubtree[m]? = some .empty
  pending_key : ∀ q ∈ s.pendingInsertionSubtree, q = .empty ∨
    (q.getKey ∈ newKeys (before.map Prod.fst) ∧ q.getKey ∉ K)
  list : IsList (s.preview (t.getNumLeaves true)) (K ∪ newKeys (before.map Prod.fst))

/-- What a turn with a leaf does: it changes the leaf `p` at position `i` to `low`, keeps its
witness, and puts `new` to the preimages to come.  Either the leaf takes the place of one with its
key, or it is linked in behind `p`. -/
structure Linking (H : Hasher Buffer Leaf) (start : ℕ) (K : Finset ℕ)
    (s s' : Insertion Buffer Leaf depth) (leaf : Leaf) (m j i : ℕ) (p low new : Preimage Leaf) :
    Prop where
  found : s.tree.visible i = some p
  updated : s.tree.updateLeaf H low i = .ok s'.tree
  inserted : s'.insertedKeys = getKey leaf :: s.insertedKeys
  witnesses : s'.lowLeavesWitnesses = s.lowLeavesWitnesses.set j
    ⟨p, i, s.tree.toTreeBase.getSiblingPath H.hash H.zero i true⟩
  pending : s'.pendingInsertionSubtree = s.pendingInsertionSubtree.set m new
  cases : (p.getKey = getKey leaf ∧ low = ⟨leaf, p.nextKey, p.nextIndex⟩ ∧ new = .empty) ∨
    (getKey leaf ∉ K ∧ InList i p ∧ InGap p.cell (getKey leaf) ∧
      low = ⟨p.leaf, getKey leaf, start + m⟩ ∧ new = ⟨leaf, p.nextKey, p.nextIndex⟩)

variable {i : ℕ} {p : Preimage Leaf}

section

variable (h : Progress t K n before s)
include h

theorem Progress.getKey_mem (hlist : IsList t.visible K) (hp : s.tree.visible i = some p) :
    p.getKey ∈ K := by
  have hkeys := h.same_keys i
  rw [hp, map_some, eq_comm, map_eq_some_iff] at hkeys
  obtain ⟨q, hq, hkey⟩ := hkeys
  exact hkey ▸ hlist.getKey_mem hq

theorem Progress.exists_of_mem (hlist : IsList t.visible K) {k : ℕ} (hk : k ∈ K) :
    ∃ i p, s.tree.visible i = some p ∧ p.getKey = k := by
  obtain ⟨i, q, hq, -, rfl⟩ := hlist.exists_of_mem hk
  have hkeys := h.same_keys i
  rw [hq, map_some, map_eq_some_iff] at hkeys
  exact ⟨i, hkeys⟩

theorem Progress.preview_eq (hp : s.tree.visible i = some p) :
    i < t.getNumLeaves true ∧ s.preview (t.getNumLeaves true) i = some p := by
  have hi := (h.indexed.visible_isSome i).1 (isSome_iff_exists.2 ⟨p, hp⟩)
  rw [h.size_eq] at hi
  exact ⟨hi, by rw [Insertion.preview, writePreimages, if_neg (not_le.2 hi), hp]⟩

theorem Progress.preview_untouched {m : ℕ} (hm : m < n) (hfresh : m ∉ before.map Prod.snd) :
    s.preview (t.getNumLeaves true) (t.getNumLeaves true + m) = some .empty := by
  rw [Insertion.preview, writePreimages, if_pos (Nat.le_add_right _ _), Nat.add_sub_cancel_left,
    h.untouched m hm hfresh]
  rfl

end

theorem progress_start (hindexed : Indexed t) (hlist : IsList t.visible K) (n : ℕ)
    (witnesses : List (LowLeafWitnessData Buffer Leaf)) : Progress t K n []
      { tree := t, insertedKeys := [], lowLeavesWitnesses := witnesses
        pendingInsertionSubtree := List.replicate n .empty } := by
  refine ⟨hindexed, SameStores.refl t, rfl, fun _ => rfl, fun k => by simp [newKeys], by simp,
    fun m hm _ => by simp [hm], fun q hq => .inl (eq_of_mem_replicate hq), ?_⟩
  have hpos : 0 < t.getNumLeaves true := (hindexed.visible_isSome 0).1 hlist.first
  have hkeys : K ∪ newKeys (([] : List (Leaf × ℕ)).map Prod.fst) = K := by simp [newKeys]
  rw [hkeys]
  refine hlist.congr ?_ (cells_congr fun i => ?_)
  · rw [Insertion.preview, writePreimages, if_neg (by omega)]
    exact hlist.first
  · rw [Insertion.preview, writePreimages]
    split
    · next hi =>
      -- beyond the tree there are only empty preimages
      have hnone : t.visible i = none := by
        rw [← not_isSome_iff_eq_none, hindexed.visible_isSome]
        omega
      refine .inr ⟨by omega, ?_, by simp [hnone]⟩
      intro p hp
      rw [hnone, or_none] at hp
      rw [eq_of_mem_replicate (mem_of_getElem? hp), Preimage.getKey_empty]
    · exact .inl rfl

theorem Progress.skip (h : Progress t K n before s) {leaf : Leaf} {m : ℕ}
    (hempty : isEmpty leaf = true) : Progress t K n (before ++ [(leaf, m)]) s := by
  have hkeys : newKeys ((before ++ [(leaf, m)]).map Prod.fst) = newKeys (before.map Prod.fst) := by
    rw [map_append]
    exact newKeys_append_of_isEmpty _ hempty
  refine ⟨h.indexed, h.same, h.size_eq, h.same_keys, hkeys ▸ h.inserted, h.pending_length,
    fun m' hm' hnot => h.untouched m' hm' ?_, hkeys ▸ h.pending_key, hkeys ▸ h.list⟩
  rw [map_append, mem_append, not_or] at hnot
  exact hnot.1

variable {leaf : Leaf} {m j : ℕ}

section

variable (h : Progress t K n before s) (hlist : IsList t.visible K)
include h hlist

theorem Progress.turn (hindex : (t.leafIndex 0).isSome) (hzero : t.leafIndex 0 = some 0 ∨ 1 ∈ K)
    (hsorted : ∀ b ∈ before, getKey leaf ≤ getKey b.1) :
    (isEmpty leaf = true ∧ insertTurn H (t.getNumLeaves true) s ((leaf, m), j) = .ok s) ∨
      (Rejected K (before.map Prod.fst) leaf ∧
        ∃ msg, insertTurn H (t.getNumLeaves true) s ((leaf, m), j) = .error (s.tree, some msg)) ∨
      (isEmpty leaf = false ∧ ¬Rejected K (before.map Prod.fst) leaf ∧ ∃ s' i p low new,
        insertTurn H (t.getNumLeaves true) s ((leaf, m), j) = .ok s' ∧
          Linking H (t.getNumLeaves true) K s s' leaf m j i p low new) := by
  cases hempty : isEmpty leaf with
  | true => exact .inl ⟨rfl, by simp [insertTurn, hempty]⟩
  | false =>
    by_cases hdup : getKey leaf ∈ newKeys (before.map Prod.fst)
    · refine .inr (.inl ⟨⟨hempty, .inl hdup⟩, "Cannot insert duplicated keys in the same batch", ?_⟩)
      simp only [insertTurn, hempty, Bool.false_eq_true, if_false, if_pos ((h.inserted _).2 hdup)]
    · obtain ⟨i, p, hp, hle, hmax, hpzero, hfind⟩ :=
        h.indexed.findIndexOfPreviousKey_eq (h.same.leafIndex_eq ▸ hindex) (getKey leaf)
      have hgreatest : ∀ k ∈ K, k ≤ getKey leaf → k ≤ p.getKey := by
        intro k hk hle
        obtain ⟨j, q, hq, rfl⟩ := h.exists_of_mem hlist hk
        exact hmax j q hq hle
      have hlow : lowLeaf (some i) (fun index => s.tree.getLatestLeafPreimageCopy index true) =
          some (i, p) := by
        change (some i).bind _ = _
        rw [bind_some]
        change (s.tree.visible i).map _ = _
        rw [hp]
        rfl
      by_cases hmem : getKey leaf ∈ K
      · have hkey : p.getKey = getKey leaf := le_antisymm hle (hgreatest _ hmem le_rfl)
        cases hto : updateTo p.leaf leaf with
        | error msg =>
          have hnot : updatable Leaf = false := by
            by_contra hup
            have hok : updateTo p.leaf leaf = .ok leaf :=
              (updateTo_eq_ok hkey).2 ⟨by simpa using hup, rfl⟩
            rw [hto] at hok
            cases hok
          refine .inr (.inl ⟨⟨hempty, .inr ⟨hmem, hnot⟩⟩, msg, ?_⟩)
          simp only [insertTurn, hempty, Bool.false_eq_true, if_false,
            if_neg (mt (h.inserted _).1 hdup), hfind, map_some, hlow, any_some,
            hkey, decide_true, if_true, hto]
        | ok updated =>
          obtain ⟨hup, rfl⟩ := (updateTo_eq_ok hkey).1 hto
          obtain ⟨t', ht', -⟩ := h.indexed.updateLeaf H
            (q := ⟨updated, p.nextKey, p.nextIndex⟩) hp hkey.symm
          refine .inr (.inr ⟨rfl, ?_, ⟨t', getKey updated :: s.insertedKeys,
            s.lowLeavesWitnesses.set j
              ⟨p, i, s.tree.toTreeBase.getSiblingPath H.hash H.zero i true⟩,
            s.pendingInsertionSubtree.set m .empty⟩, i, p,
            ⟨updated, p.nextKey, p.nextIndex⟩, .empty, ?_, hp, ht', rfl, rfl, rfl,
            .inl ⟨hkey, rfl, rfl⟩⟩)
          · rintro ⟨-, hmem' | ⟨-, hnot⟩⟩
            · exact hdup hmem'
            · rw [hup] at hnot
              cases hnot
          · simp only [insertTurn, hempty, Bool.false_eq_true, if_false,
              if_neg (mt (h.inserted _).1 hdup), hfind, map_some, hlow,
              any_some, hkey, decide_true, if_true, hto, ht']
      · have hlt : p.getKey < getKey leaf :=
          lt_of_le_of_ne hle fun heq => hmem (heq ▸ h.getKey_mem hlist hp)
        have hin : InList i p := by
          rcases hzero with hzero | hone
          · by_cases hp0 : p.getKey = 0
            · have hi := hpzero hp0
              rw [h.same.leafIndex_eq, hzero] at hi
              exact .inl (some.inj hi).symm
            · exact .inr hp0
          · have := hgreatest 1 hone (by omega)
            exact .inr (by omega)
        have hgap : InGap p.cell (getKey leaf) := by
          refine h.list.inGap (h.preview_eq hp).2 hin hlt fun k hk hle => ?_
          rcases Finset.mem_union.1 hk with hk | hk
          · exact hgreatest k hk hle
          · -- the keys to come are greater
            obtain ⟨b, hb, -, rfl⟩ := mem_newKeys.1 hk
            obtain ⟨e, he, rfl⟩ := mem_map.1 hb
            exact absurd (le_antisymm (hsorted e he) hle ▸ hk) hdup
        obtain ⟨t', ht', -⟩ := h.indexed.updateLeaf H
          (q := ⟨p.leaf, getKey leaf, t.getNumLeaves true + m⟩) hp rfl
        refine .inr (.inr ⟨rfl, ?_, ⟨t', getKey leaf :: s.insertedKeys, s.lowLeavesWitnesses.set j
            ⟨p, i, s.tree.toTreeBase.getSiblingPath H.hash H.zero i true⟩,
          s.pendingInsertionSubtree.set m ⟨leaf, p.nextKey, p.nextIndex⟩⟩, i, p,
          ⟨p.leaf, getKey leaf, t.getNumLeaves true + m⟩, ⟨leaf, p.nextKey, p.nextIndex⟩, ?_,
          hp, ht', rfl, rfl, rfl, .inr ⟨hmem, hin, hgap, rfl, rfl⟩⟩)
        · rintro ⟨-, hmem' | ⟨hmem', -⟩⟩
          · exact hdup hmem'
          · exact hmem hmem'
        · simp only [insertTurn, hempty, Bool.false_eq_true, if_false,
            if_neg (mt (h.inserted _).1 hdup), hfind, map_some, hlow, any_some,
            decide_eq_false hlt.ne, ht']

theorem Progress.linking {low new : Preimage Leaf} (hm : m < n) (hfresh : m ∉ before.map Prod.snd)
    (hne : isEmpty leaf = false)
    (hlink : Linking H (t.getNumLeaves true) K s s' leaf m j i p low new) :
    Progress t K n (before ++ [(leaf, m)]) s' ∧
      s'.tree.visible = Function.update s.tree.visible i (some low) ∧ s'.tree.toTreeBase =
        s.tree.toTreeBase.addLeafToCacheAndHashToRoot H.hash H.zero (encodeLeaf H low true) i := by
  have hkey : low.getKey = p.getKey := by
    rcases hlink.cases with ⟨hkey, rfl, -⟩ | ⟨-, -, -, rfl, -⟩
    · exact hkey.symm
    · rfl
  obtain ⟨t', ht', hindexed, hsame, hvisible, hnum, hbase⟩ :=
    h.indexed.updateLeaf H hlink.found hkey
  obtain rfl : s'.tree = t' := Except.ok.inj (hlink.updated.symm.trans ht')
  have hkeys : newKeys ((before ++ [(leaf, m)]).map Prod.fst) =
      insert (getKey leaf) (newKeys (before.map Prod.fst)) := by
    rw [map_append]
    exact newKeys_append _ hne
  obtain ⟨hi, hpreview⟩ := h.preview_eq hlink.found
  have hlength : m < s.pendingInsertionSubtree.length := h.pending_length ▸ hm
  have hnext : s'.preview (t.getNumLeaves true) =
      Function.update (Function.update (s.preview (t.getNumLeaves true)) i (some low))
        (t.getNumLeaves true + m) (some new) := by
    rw [Insertion.preview, hvisible, hlink.pending]
    exact writePreimages_update hi hlength low new
  have huntouched := h.preview_untouched hm hfresh
  refine ⟨⟨hindexed, h.same.trans hsame, hnum.trans h.size_eq, ?_, ?_, ?_, ?_, ?_, ?_⟩, hvisible,
    hbase⟩
  · intro i'
    rw [← h.same_keys i', hvisible, Function.update_apply]
    split
    · next hi' => rw [hi', hlink.found, map_some, map_some, hkey]
    · rfl
  · intro k
    rw [hlink.inserted, hkeys, mem_cons, Finset.mem_insert, h.inserted]
  · rw [hlink.pending, length_set, h.pending_length]
  · intro m' hm' hnot
    rw [map_append, mem_append, not_or] at hnot
    have hmm : m ≠ m' := fun heq => hnot.2 (by simp [heq])
    rw [hlink.pending, List.getElem?_set_ne hmm]
    exact h.untouched m' hm' hnot.1
  · intro q hq
    rw [hlink.pending] at hq
    rw [hkeys]
    rcases mem_or_eq_of_mem_set hq with hq | rfl
    · exact (h.pending_key q hq).imp id fun hq => ⟨Finset.mem_insert_of_mem hq.1, hq.2⟩
    · rcases hlink.cases with ⟨-, -, rfl⟩ | ⟨hnot, -, -, -, rfl⟩
      · exact .inl rfl
      · exact .inr ⟨Finset.mem_insert_self _ _, hnot⟩
  · rw [hnext, hkeys, Finset.union_insert]
    rcases hlink.cases with ⟨hsame, rfl, rfl⟩ | ⟨-, hin, hgap, rfl, rfl⟩
    · have hmem : getKey leaf ∈ K ∪ newKeys (before.map Prod.fst) :=
        Finset.mem_union_left _ (hsame ▸ h.getKey_mem hlist hlink.found)
      rw [Finset.insert_eq_of_mem hmem]
      have hcell : (⟨leaf, p.nextKey, p.nextIndex⟩ : Preimage Leaf).cell = p.cell := by
        rw [Preimage.cell, Preimage.cell, hkey]
      refine (h.list.overwrite hpreview hcell).overwrite (p := .empty) ?_ rfl
      rw [Function.update_of_ne (by omega), huntouched]
    · refine (h.list.link hpreview hin (by omega) ?_ hgap rfl).2
      intro q hq
      rw [huntouched, some.injEq] at hq
      rw [← hq, Preimage.getKey_empty]

theorem Progress.isList (hold : ∀ k ∈ newKeys (before.map Prod.fst), k ∈ K) : IsList s.tree.visible K := by
  have hkeys : K ∪ newKeys (before.map Prod.fst) = K := Finset.union_eq_left.2 hold
  have hpos : 0 < t.getNumLeaves true := by
    rw [← h.size_eq, ← h.indexed.visible_isSome 0, ← isSome_map, h.same_keys 0, isSome_map]
    exact hlist.first
  have hfirst : (s.tree.visible 0).isSome := (h.indexed.visible_isSome 0).2 (h.size_eq ▸ hpos)
  rw [← hkeys]
  refine h.list.congr hfirst (cells_congr fun i => ?_)
  rw [Insertion.preview, writePreimages]
  split
  · next hi =>
    have hnone : s.tree.visible i = none := by
      rw [← not_isSome_iff_eq_none, h.indexed.visible_isSome, h.size_eq]
      omega
    refine .inr ⟨by omega, by simp [hnone], fun q hq => ?_⟩
    rw [hnone, or_none] at hq
    rcases h.pending_key q (mem_of_getElem? hq) with rfl | ⟨hq, hnot⟩
    · exact Preimage.getKey_empty
    · exact absurd (hold _ hq) hnot
  · exact .inl rfl

end

end Loop

/-! ### The whole batch -/

section Batch

variable (H : Hasher Buffer Leaf) {t : StandardIndexedTree Buffer Leaf depth}
  {K : Finset ℕ} {leaves : List Leaf}

/-- **A batch is inserted as a whole, or given up at a rejected leaf.**  When it is given up, the
tree has a sorted list as long as no new key was linked in before. -/
theorem batchInsert_cases (hindexed : Indexed t) (hlist : IsList t.visible K)
    (hindex : (t.leafIndex 0).isSome) (hzero : t.leafIndex 0 = some 0 ∨ 1 ∈ K)
    (hfits : t.getNumLeaves true + leaves.length ≤ 2 ^ depth) (subtreeHeight : ℕ) :
    ∃ t' outcome, t.batchInsert H leaves subtreeHeight = (t', outcome) ∧ Indexed t' ∧
      SameStores t t' ∧
      (((∃ result, outcome = .ok result) ∧ IsList t'.visible (K ∪ newKeys leaves)) ∨
        ((∃ msg, outcome = .error msg) ∧ ∃ before leaf after,
          (sortedDescendingLeafTuples leaves).map Prod.fst = before ++ leaf :: after ∧
            NoneRejected K before ∧ Rejected K before leaf ∧ ((∀ k ∈ newKeys before, k ∈ K) → IsList t'.visible K))) := by
  have hsplit : ∀ {before after e}, (sortedDescendingLeafTuples leaves).zipIdx =
      before ++ e :: after → sortedDescendingLeafTuples leaves =
        before.map Prod.fst ++ (e.1.1, e.1.2) :: after.map Prod.fst := by
    intro before after e h
    have := congrArg (List.map Prod.fst) h
    rwa [zipIdx_map_fst, map_append, map_cons] at this
  have hstep : ∀ before e after s s', (sortedDescendingLeafTuples leaves).zipIdx =
      before ++ e :: after → Progress t K leaves.length (before.map Prod.fst) s ∧
        NoneRejected K ((before.map Prod.fst).map Prod.fst) →
        insertTurn H (t.getNumLeaves true) s e = .ok s' →
          Progress t K leaves.length ((before ++ [e]).map Prod.fst) s' ∧
            NoneRejected K (((before ++ [e]).map Prod.fst).map Prod.fst) := by
    rintro before ⟨⟨leaf, m⟩, j⟩ after s s' hl ⟨hprogress, hnone⟩ hturn
    obtain ⟨hm, hfresh, hsorted⟩ := sortedDescendingLeafTuples_split (hsplit hl)
    rw [map_append, map_append]
    rcases hprogress.turn (H := H) (m := m) (j := j) hlist hindex hzero hsorted with
      ⟨hempty, hok⟩ | ⟨-, msg, hfail⟩ | ⟨hne, hkept, s'', i, p, low, new, hok, hlink⟩
    · obtain rfl : s = s' := Except.ok.inj (hok.symm.trans hturn)
      exact ⟨hprogress.skip hempty, hnone.concat fun hr => Bool.noConfusion (hempty.symm.trans hr.1)⟩
    · rw [hfail] at hturn
      cases hturn
    · obtain rfl : s'' = s' := Except.ok.inj (hok.symm.trans hturn)
      exact ⟨(hprogress.linking hlist hm hfresh hne hlink).1, hnone.concat hkept⟩
  have hstart : NoneRejected K ([] : List Leaf) := fun b leaf hb => by
    cases append_eq_nil_iff.1 (prefix_nil.1 hb) |>.2
  simp only [batchInsert]
  rcases Failing.foldlM_cases (fun before s => Progress t K leaves.length (before.map Prod.fst) s ∧
    NoneRejected K ((before.map Prod.fst).map Prod.fst))
    ⟨progress_start hindexed hlist leaves.length _, hstart⟩ hstep with
    ⟨s, hs, hprogress, -⟩ | ⟨before, ⟨⟨leaf, m⟩, j⟩, after, s, e, hl, ⟨hprogress, hnone⟩, hfail, hs⟩
  · -- the collected preimages are appended
    rw [zipIdx_map_fst] at hprogress
    have hroom : s.tree.getNumLeaves true + s.pendingInsertionSubtree.length ≤ 2 ^ depth := by
      rwa [hprogress.size_eq, hprogress.pending_length]
    obtain ⟨t', ht', hindexed', hsame, hvisible, -⟩ :=
      hprogress.indexed.encodeAndAppendLeaves H s.pendingInsertionSubtree false hroom
    have hlist' := hprogress.list
    rw [newKeys_perm (sortedDescendingLeafTuples_perm leaves)] at hlist'
    rw [hprogress.size_eq] at hvisible
    rw [hs]
    simp only [ht']
    exact ⟨_, _, rfl, hindexed', hprogress.same.trans hsame, .inl ⟨⟨_, rfl⟩, hvisible ▸ hlist'⟩⟩
  · obtain ⟨hm, hfresh, hsorted⟩ := sortedDescendingLeafTuples_split (hsplit hl)
    rw [hs]
    rcases hprogress.turn (H := H) (m := m) (j := j) hlist hindex hzero hsorted with
      ⟨-, hok⟩ | ⟨hrejected, msg, hfail'⟩ | ⟨-, -, s', i, p, low, new, hok, -⟩
    · rw [hok] at hfail
      cases hfail
    · obtain rfl : (s.tree, some msg) = e := Except.error.inj (hfail'.symm.trans hfail)
      refine ⟨_, _, rfl, hprogress.indexed, hprogress.same, .inr ⟨⟨msg, rfl⟩, _, leaf,
        (after.map Prod.fst).map Prod.fst, ?_, hnone, hrejected, hprogress.isList hlist⟩⟩
      rw [hsplit hl, map_append, map_cons]
    · rw [hok] at hfail
      cases hfail

end Batch

end StandardIndexedTree
