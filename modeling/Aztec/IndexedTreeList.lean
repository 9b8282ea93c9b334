/-
**The sorted list in the indexed tree.**

The preimages of a `StandardIndexedTree` form a sorted linked list, once for the committed ones and
once for the visible ones, those with the uncommitted changes.  The index of a key is found in two
places, the cache and the store that maps keys to indices, and both have to fit the preimages.
-/

import Aztec.LinkedLeaves
import Aztec.StandardIndexedTree

open LinkedLeaves Function Option

def Preimage.cell {Leaf : Type} [IndexedTreeLeaf Leaf] (p : Preimage Leaf) : Cell ℕ :=
  ⟨p.getKey, p.nextKey, p.nextIndex⟩

namespace StandardIndexedTree

variable {Buffer Leaf : Type} [IndexedTreeLeaf Leaf] {depth : ℕ}

/-! ### Preimages as a list -/

section Cells

/-- Preimages as the leaves of a list, without data.  A preimage with key zero fills up a subtree;
only the one at position `0` is part of the list. -/
def listLayout (Leaf : Type) [IndexedTreeLeaf Leaf] : Layout (Option (Preimage Leaf)) ℕ Unit where
  empty := none
  absent p := p.all fun p => p.getKey = 0
  cell p := p.elim ⟨0, 0, 0⟩ Preimage.cell
  payload _ := ()
  absent_empty := rfl
  cell_empty := rfl

def cells (view : ℕ → Option (Preimage Leaf)) : Table ℕ := (listLayout Leaf).table view

def InList (i : ℕ) (p : Preimage Leaf) : Prop := i = 0 ∨ p.getKey ≠ 0

variable {view view' : ℕ → Option (Preimage Leaf)} {i j k : ℕ} {p q : Preimage Leaf}

theorem isCell_iff (hp : view i = some p) : (listLayout Leaf).IsCell view i ↔ InList i p := by
  simp [Layout.IsCell, InList, hp, listLayout]

theorem cells_eq_cell (hp : view i = some p) (hi : InList i p) : cells view i = some p.cell := by
  refine (Layout.table_of_isCell ((isCell_iff hp).2 hi)).trans ?_
  simp [hp, listLayout]

theorem cells_eq_some {c : Cell ℕ} (h0 : (view 0).isSome) (hc : cells view i = some c) :
    ∃ p, view i = some p ∧ InList i p ∧ p.cell = c := by
  obtain ⟨hcell, hc⟩ := Layout.table_eq_some.1 hc
  cases hp : view i with
  | none =>
    rcases hcell with rfl | habsent
    · simp [hp] at h0
    · simp [hp, listLayout] at habsent
  | some p => exact ⟨p, rfl, (isCell_iff hp).1 hcell, by simpa [hp, listLayout] using hc⟩

theorem cells_congr (h : ∀ i, (view i).map Preimage.cell = (view' i).map Preimage.cell ∨
    (i ≠ 0 ∧ (∀ p, view i = some p → p.getKey = 0) ∧ ∀ p, view' i = some p → p.getKey = 0)) :
    cells view = cells view' := by
  have habsent : ∀ {view : ℕ → Option (Preimage Leaf)} {i}, i ≠ 0 →
      (∀ p, view i = some p → p.getKey = 0) → cells view i = none := fun hi hzero =>
    Layout.table_eq_none hi (by simpa [listLayout, all_eq_true] using hzero)
  funext i
  rcases h i with heq | ⟨hi, hzero, hzero'⟩
  · cases hp : view i with
    | none =>
      rw [hp, map_none, eq_comm, map_eq_none_iff] at heq
      exact Layout.table_congr (hp.trans heq.symm)
    | some p =>
      rw [hp, map_some, eq_comm, map_eq_some_iff] at heq
      obtain ⟨p', hp', hcell⟩ := heq
      have hkey : p'.getKey = p.getKey := congrArg Cell.key hcell
      by_cases hi : InList i p
      · rw [cells_eq_cell hp hi, cells_eq_cell hp' (by rwa [InList, hkey]), hcell]
      · simp only [InList, not_or, not_not] at hi
        rw [habsent hi.1 (by simpa [hp] using hi.2), habsent hi.1 (by simpa [hp', hkey] using hi.2)]
  · rw [habsent hi hzero, habsent hi hzero']

/-- **The preimages form a sorted list** with the keys `K`. -/
structure IsList (view : ℕ → Option (Preimage Leaf)) (K : Finset ℕ) : Prop where
  first : (view 0).isSome
  linked : Linked (cells view)
  keys_eq : keys (cells view) = K

variable {K : Finset ℕ}

section

variable (h : IsList view K)
include h

theorem IsList.zero_mem : 0 ∈ K := by
  rw [← Finset.mem_coe, ← h.keys_eq]
  exact h.linked.bot_mem

theorem IsList.getKey_first (hp : view 0 = some p) : p.getKey = 0 := by
  obtain ⟨c, hc, hbot⟩ := h.linked.head
  rw [cells_eq_cell hp (.inl rfl), some.injEq] at hc
  subst hc
  exact hbot

theorem IsList.getKey_mem (hp : view i = some p) : p.getKey ∈ K := by
  rcases eq_or_ne p.getKey 0 with hzero | hne
  · rw [hzero]; exact h.zero_mem
  · rw [← Finset.mem_coe, ← h.keys_eq]
    exact mem_keys (c := p.cell) (cells_eq_cell hp (.inr hne))

theorem IsList.exists_of_mem (hk : k ∈ K) : ∃ i p, view i = some p ∧ InList i p ∧ p.getKey = k := by
  rw [← Finset.mem_coe, ← h.keys_eq] at hk
  obtain ⟨i, c, hc, rfl⟩ := hk
  obtain ⟨p, hp, hi, rfl⟩ := cells_eq_some h.first hc
  exact ⟨i, p, hp, hi, rfl⟩

theorem IsList.unique (hp : view i = some p) (hi : InList i p) (hq : view j = some q)
    (hj : InList j q) (hkey : p.getKey = q.getKey) : i = j :=
  h.linked.unique (cells_eq_cell hp hi) (cells_eq_cell hq hj) hkey

theorem IsList.congr (h0 : (view' 0).isSome) (hcells : cells view' = cells view) :
    IsList view' K := ⟨h0, hcells ▸ h.linked, hcells ▸ h.keys_eq⟩

theorem IsList.follows : ∃ path, Follows (fun i => (view i).map Preimage.cell) 0 path ∧
      path.map Prod.snd = K.sort (· ≤ ·) ∧
      ∀ e ∈ path, ∃ p, view e.1 = some p ∧ InList e.1 p ∧ p.getKey = e.2 := by
  obtain ⟨path, hpath, hsort⟩ := h.linked.follows h.keys_eq
  refine ⟨path, hpath.mono fun i c hc => ?_, hsort, fun e he => ?_⟩
  · obtain ⟨p, hp, -, rfl⟩ := cells_eq_some h.first hc
    simp [hp]
  · obtain ⟨c, hc, hkey⟩ := hpath.exists_of_mem e he
    obtain ⟨p, hp, hin, rfl⟩ := cells_eq_some h.first hc
    exact ⟨p, hp, hin, hkey⟩

theorem IsList.overwrite (hp : view i = some p) (hcell : q.cell = p.cell) :
    IsList (update view i (some q)) K := by
  refine h.congr ?_ (cells_congr fun j => .inl ?_)
  · rw [update_apply]
    split
    · rfl
    · exact h.first
  · rw [update_apply]
    split
    · next hj => rw [hj, hp, map_some, map_some, hcell]
    · rfl

theorem IsList.inGap (hp : view i = some p) (hi : InList i p) (hlt : p.getKey < k)
    (hgreatest : ∀ k' ∈ K, k' ≤ k → k' ≤ p.getKey) : InGap p.cell k := by
  refine h.linked.inGap_of_greatest (cells_eq_cell hp hi) hlt fun hd hle => ?_
  exact hgreatest _ (by rw [← Finset.mem_coe, ← h.keys_eq]; exact mem_keys hd) hle

theorem IsList.link (hp : view i = some p) (hi : InList i p) (hj : j ≠ 0)
    (hfree : ∀ q, view j = some q → q.getKey = 0) (hgap : InGap p.cell k) {leaf : Leaf}
    (hleaf : IndexedTreeLeaf.getKey leaf = k) :
    i ≠ j ∧ IsList (update (update view i (some ⟨p.leaf, k, j⟩)) j
      (some ⟨leaf, p.nextKey, p.nextIndex⟩)) (insert k K) := by
  have hkey : k ≠ 0 := Nat.ne_zero_of_lt hgap.1
  have habsent : (listLayout Leaf).absent (view j) = true := by
    simpa [listLayout, all_eq_true] using hfree
  have hcell : (listLayout Leaf).cell (view i) = p.cell := by simp [hp, listLayout]
  have hlow : (listLayout Leaf).cell (some ⟨p.leaf, k, j⟩) =
      ((listLayout Leaf).cell (view i)).pointingTo k j := by rw [hcell]; rfl
  have hnew : (listLayout Leaf).cell (some ⟨leaf, p.nextKey, p.nextIndex⟩) =
      ((listLayout Leaf).cell (view i)).withKey k := by rw [hcell, ← hleaf]; rfl
  obtain ⟨hne, hc, hnone, htable⟩ := Layout.table_link ((isCell_iff hp).2 hi) hj habsent
    (hcell ▸ hgap) hlow (hi.imp id fun hne => decide_eq_false hne) hnew
    (by simpa [listLayout, hleaf] using hkey)
  rw [hcell] at hc htable
  refine ⟨hne, ?_, ?_, ?_⟩
  · rw [update_of_ne hj.symm, update_apply]
    split
    · rfl
    · exact h.first
  · rw [cells, htable]
    exact h.linked.insertAt hc hgap hnone
  · rw [Finset.coe_insert, ← h.keys_eq]
    exact (congrArg keys htable).trans (keys_insertAt hc hnone)

end

end Cells

/-! ### Finding a key -/

section Indexed

variable {t t' : StandardIndexedTree Buffer Leaf depth} {i k : ℕ} {p q : Preimage Leaf}

/-- **The parts of the state fit each other**: the preimages, in the store and in the cache, are
those of the leaves, a cached preimage has the key of the stored one, and the index of a key is one
of a leaf with it. -/
structure Indexed (t : StandardIndexedTree Buffer Leaf depth) : Prop where
  stored_isSome : ∀ i, (t.leaves i).isSome ↔ i < t.getNumLeaves false
  visible_isSome : ∀ i, (t.visible i).isSome ↔ i < t.getNumLeaves true
  fits : t.getNumLeaves true ≤ 2 ^ depth
  key_eq : ∀ {i p q}, t.cachedLeafPreimages.get i = some p → t.leaves i = some q →
    p.getKey = q.getKey
  index_some : ∀ {k i}, t.leafIndex k = some i → ∃ p, t.leaves i = some p ∧ p.getKey = k
  index_isSome : ∀ {i p}, t.leaves i = some p → (t.leafIndex p.getKey).isSome

theorem Indexed.visible_of_stored (h : Indexed t) (hp : t.leaves i = some p) :
    ∃ q, t.visible i = some q ∧ q.getKey = p.getKey := by
  rw [visible_eq]
  cases hq : t.cachedLeafPreimages.get i with
  | none => exact ⟨p, hp, rfl⟩
  | some q => exact ⟨q, rfl, h.key_eq hq hp⟩

theorem Indexed.size_le (h : Indexed t) : t.getNumLeaves false ≤ t.getNumLeaves true := by
  by_contra hlt
  rw [not_le] at hlt
  obtain ⟨p, hp⟩ := isSome_iff_exists.1 ((h.stored_isSome _).2 hlt)
  obtain ⟨q, hq, -⟩ := h.visible_of_stored hp
  exact lt_irrefl _ ((h.visible_isSome _).1 (isSome_iff_exists.2 ⟨q, hq⟩))

theorem Indexed.getDbLowLeafIndex_eq (h : Indexed t) (hzero : (t.leafIndex 0).isSome) (k : ℕ) :
    ∃ i p, lowLeaf (t.getDbLowLeafIndex k) t.getDbPreimage = some (i, p) ∧ t.leaves i = some p ∧
      p.getKey ≤ k ∧ t.leafIndex p.getKey = some i ∧
        ∀ j q, t.leaves j = some q → q.getKey ≤ k → q.getKey ≤ p.getKey := by
  obtain ⟨i, hi⟩ := isSome_iff_exists.1 (PropertyMap.lastUpTo_isSome (Nat.zero_le k) hzero)
  obtain ⟨k', hk', hindex, hmax⟩ := PropertyMap.lastUpTo_eq_some hi
  obtain ⟨p, hp, rfl⟩ := h.index_some hindex
  refine ⟨i, p, ?_, hp, hk', hindex, fun j q hq hle => hmax _ hle (h.index_isSome hq)⟩
  rw [getDbLowLeafIndex, hi]
  simp [lowLeaf, getDbPreimage, hp]

theorem getCachedLowLeafIndex_eq (t : StandardIndexedTree Buffer Leaf depth) (k : ℕ) :
    (lowLeaf (t.getCachedLowLeafIndex k) t.getCachedPreimage = none ∧
        ∀ j q, t.cachedLeafPreimages.get j = some q → ¬q.getKey ≤ k) ∨
      ∃ i p, lowLeaf (t.getCachedLowLeafIndex k) t.getCachedPreimage = some (i, p) ∧
        t.cachedLeafPreimages.get i = some p ∧ p.getKey ≤ k ∧
          ∀ j q, t.cachedLeafPreimages.get j = some q → q.getKey ≤ k → q.getKey ≤ p.getKey := by
  have hmem : ∀ {j q}, t.cachedLeafPreimages.get j = some q → q.getKey ≤ k →
      (j, q) ∈ t.cachedLeafPreimages.entries.filter fun e => e.2.getKey ≤ k := fun hq hle =>
    List.mem_filter.2 ⟨PropertyMap.mem_entries_iff.2 hq, decide_eq_true hle⟩
  simp only [getCachedLowLeafIndex]
  cases hgreatest : PropertyMap.greatest (fun e => e.2.getKey)
      (t.cachedLeafPreimages.entries.filter fun e => e.2.getKey ≤ k) with
  | none =>
    refine .inl ⟨rfl, fun j q hq hle => ?_⟩
    have := hmem hq hle
    rw [PropertyMap.greatest_eq_none hgreatest] at this
    exact List.not_mem_nil this
  | some e =>
    obtain ⟨he, hmax⟩ := PropertyMap.greatest_eq_some hgreatest
    obtain ⟨he, hle⟩ := List.mem_filter.1 he
    have hget := PropertyMap.mem_entries_iff.1 he
    refine .inr ⟨e.1, e.2, ?_, hget, of_decide_eq_true hle, fun j q hq hle =>
      hmax (j, q) (hmem hq hle)⟩
    simp [lowLeaf, getCachedPreimage, hget]

/-- **The search finds the greatest visible key up to the given one.**  Only when that is zero, the
store decides which of the leaves with key zero is found. -/
theorem Indexed.findIndexOfPreviousKey_eq (h : Indexed t) (hzero : (t.leafIndex 0).isSome)
    (k : ℕ) : ∃ i p, t.visible i = some p ∧ p.getKey ≤ k ∧
      (∀ j q, t.visible j = some q → q.getKey ≤ k → q.getKey ≤ p.getKey) ∧
      (p.getKey = 0 → t.leafIndex 0 = some i) ∧
      t.findIndexOfPreviousKey k true = some (i, decide (p.getKey = k)) := by
  obtain ⟨i, p, hlow, hp, hle, hindex, hmax⟩ := h.getDbLowLeafIndex_eq hzero k
  -- a visible preimage is a cached one or a stored one
  have hvisible : ∀ {bound}, (∀ j q, t.cachedLeafPreimages.get j = some q → q.getKey ≤ k →
      q.getKey ≤ bound) → p.getKey ≤ bound →
      ∀ j q, t.visible j = some q → q.getKey ≤ k → q.getKey ≤ bound := by
    intro bound hcached hbound j q hq hqk
    rw [visible_eq, or_eq_some_iff] at hq
    rcases hq with hq | ⟨-, hq⟩
    · exact hcached j q hq hqk
    · exact (hmax j q hq hqk).trans hbound
  obtain ⟨p', hp', hkey⟩ := h.visible_of_stored hp
  have hstored : ∀ hbound : (∀ j q, t.cachedLeafPreimages.get j = some q → q.getKey ≤ k →
      q.getKey ≤ p.getKey), t.findIndexOfPreviousKey k true = some (i, decide (p.getKey = k)) →
      ∃ i p, t.visible i = some p ∧ p.getKey ≤ k ∧
        (∀ j q, t.visible j = some q → q.getKey ≤ k → q.getKey ≤ p.getKey) ∧
        (p.getKey = 0 → t.leafIndex 0 = some i) ∧
        t.findIndexOfPreviousKey k true = some (i, decide (p.getKey = k)) := by
    intro hbound hfind
    refine ⟨i, p', hp', hkey ▸ hle, hkey ▸ hvisible hbound le_rfl, fun h0 => ?_, hkey ▸ hfind⟩
    rw [hkey] at h0
    exact h0 ▸ hindex
  rcases getCachedLowLeafIndex_eq t k with ⟨hnone, hcached⟩ | ⟨i', c, hsome, hc, hck, hcached⟩
  · refine hstored (fun j q hq hqk => absurd hqk (hcached j q hq)) ?_
    simp only [findIndexOfPreviousKey, hlow, hnone]
    rfl
  · by_cases hgt : c.getKey > p.getKey
    · refine ⟨i', c, by rw [visible_eq, hc]; rfl, hck, hvisible hcached hgt.le,
        fun h0 => absurd h0 (Nat.ne_zero_of_lt hgt), ?_⟩
      simp only [findIndexOfPreviousKey, hlow, hsome, if_true, if_pos hgt]
      rfl
    · refine hstored (fun j q hq hqk => (hcached j q hq hqk).trans (not_lt.1 hgt)) ?_
      simp only [findIndexOfPreviousKey, hlow, hsome, if_true, if_neg hgt]
      rfl

/-! ### The state stays consistent -/

theorem indexed_new (H : Hasher Buffer Leaf) (depth : ℕ) :
    Indexed (new H depth : StandardIndexedTree Buffer Leaf depth) := by
  refine ⟨?_, ?_, Nat.zero_le _, ?_, ?_, ?_⟩
  · exact fun i => iff_of_false Bool.false_ne_true (Nat.not_lt_zero i)
  · exact fun i => iff_of_false Bool.false_ne_true (Nat.not_lt_zero i)
  · intro i p q hp
    cases hp
  · intro k i hi
    cases hi
  · intro i p hp
    cases hp

theorem Indexed.zero_isSome (h : Indexed t) {K : Finset ℕ} (hlist : IsList t.leaves K) :
    (t.leafIndex 0).isSome := by
  obtain ⟨p, hp⟩ := isSome_iff_exists.1 hlist.first
  rw [← hlist.getKey_first hp]
  exact h.index_isSome hp

variable (H : Hasher Buffer Leaf)

theorem Indexed.updateLeaf (h : Indexed t) (hp : t.visible i = some p)
    (hkey : q.getKey = p.getKey) :
    ∃ t', t.updateLeaf H q i = .ok t' ∧ Indexed t' ∧ SameStores t t' ∧
      t'.visible = update t.visible i (some q) ∧
      t'.getNumLeaves true = t.getNumLeaves true ∧ t'.toTreeBase =
        t.toTreeBase.addLeafToCacheAndHashToRoot H.hash H.zero (encodeLeaf H q true) i := by
  have hi : i < t.getNumLeaves true := (h.visible_isSome i).1 (isSome_iff_exists.2 ⟨p, hp⟩)
  obtain ⟨t', ht', hsame, hcached, hnum, hbase⟩ := updateLeaf_eq (H := H) q hi h.fits
  have hvisible := visible_updateLeaf hsame hcached
  refine ⟨t', ht', ⟨?_, ?_, hnum ▸ h.fits, ?_, ?_, ?_⟩, hsame, hvisible, hnum, hbase⟩
  · rw [hsame.leaves_eq, hsame.getNumLeaves_false]
    exact h.stored_isSome
  · intro j
    rw [hvisible, hnum, update_apply]
    split
    · next hj => rw [hj]; exact iff_of_true rfl hi
    · exact h.visible_isSome j
  · intro j r r' hr hr'
    rw [hcached, PropertyMap.get_set] at hr
    rw [hsame.leaves_eq] at hr'
    split at hr
    · next hj =>
      -- the stored preimage has the key of the visible one, which is kept
      subst hj
      obtain ⟨p', hp', hkey'⟩ := h.visible_of_stored hr'
      rw [hp, some.injEq] at hp'
      rw [← some.inj hr, hkey, hp', hkey']
    · exact h.key_eq hr hr'
  · rw [hsame.leafIndex_eq, hsame.leaves_eq]
    exact h.index_some
  · rw [hsame.leafIndex_eq, hsame.leaves_eq]
    exact h.index_isSome

theorem Indexed.encodeAndAppendLeaves (h : Indexed t) (preimages : List (Preimage Leaf))
    (hash0Leaf : Bool) (hfits : t.getNumLeaves true + preimages.length ≤ 2 ^ depth) :
    ∃ t', t.encodeAndAppendLeaves H preimages hash0Leaf = (t', .ok ()) ∧ Indexed t' ∧
      SameStores t t' ∧ t'.visible = writePreimages t.visible (t.getNumLeaves true) preimages ∧
      t'.getNumLeaves true = t.getNumLeaves true + preimages.length ∧
      t.toTreeBase.appendLeaves H.hash H.zero (preimages.map fun p => encodeLeaf H p hash0Leaf) =
        .ok t'.toTreeBase := by
  obtain ⟨t', ht', hsame, hcached, hnum, hbase⟩ :=
    encodeAndAppendLeaves_eq (H := H) preimages hash0Leaf hfits
  have hvisible := visible_encodeAndAppendLeaves hsame hcached
  refine ⟨t', ht', ⟨?_, ?_, hnum ▸ hfits, ?_, ?_, ?_⟩, hsame, hvisible, hnum, hbase⟩
  · rw [hsame.leaves_eq, hsame.getNumLeaves_false]
    exact h.stored_isSome
  · intro j
    have hj := h.visible_isSome j
    rw [hvisible, hnum, writePreimages]
    split
    · rw [isSome_or, Bool.or_eq_true, hj, isSome_getElem?]
      omega
    · rw [hj]
      omega
  · intro j r r' hr hr'
    rw [hsame.leaves_eq] at hr'
    have hj := (h.stored_isSome j).1 (isSome_iff_exists.2 ⟨r', hr'⟩)
    rw [hcached, writePreimages, if_neg (by have := h.size_le; omega)] at hr
    exact h.key_eq hr hr'
  · rw [hsame.leafIndex_eq, hsame.leaves_eq]
    exact h.index_some
  · rw [hsame.leafIndex_eq, hsame.leaves_eq]
    exact h.index_isSome

theorem getNumLeaves_commit (t : StandardIndexedTree Buffer Leaf depth) (includeUncommitted : Bool) :
    t.commit.getNumLeaves includeUncommitted = t.getNumLeaves true := by
  rw [toTreeBase_commit]
  cases includeUncommitted with
  | false => rfl
  | true => rfl

theorem Indexed.commit (h : Indexed t) : Indexed t.commit := by
  refine ⟨?_, ?_, ?_, ?_, ?_, ?_⟩
  · rw [leaves_commit, getNumLeaves_commit]
    exact h.visible_isSome
  · rw [visible_commit, getNumLeaves_commit]
    exact h.visible_isSome
  · rw [getNumLeaves_commit]
    exact h.fits
  · intro i p q hp
    cases hp
  · intro k i hi
    rw [leaves_commit]
    rcases leafIndex_commit t k with ⟨hsame, -⟩ | ⟨j, p, hp, hkey, hsome⟩
    · obtain ⟨p, hp, rfl⟩ := h.index_some (hsame ▸ hi)
      exact h.visible_of_stored hp
    · obtain rfl : j = i := some.inj (hsome.symm.trans hi)
      exact ⟨p, by rw [visible_eq, hp]; rfl, hkey⟩
  · intro i p hp
    rw [leaves_commit, visible_eq, or_eq_some_iff] at hp
    rcases leafIndex_commit t p.getKey with ⟨hsame, hnone⟩ | ⟨j, q, -, -, hsome⟩
    · rcases hp with hp | ⟨-, hp⟩
      · exact absurd rfl (hnone i p hp)
      · exact hsame ▸ h.index_isSome hp
    · rw [hsome]; rfl

theorem Indexed.rollback (h : Indexed t) : Indexed t.rollback := by
  refine ⟨h.stored_isSome, h.stored_isSome, h.size_le.trans h.fits, ?_, h.index_some,
    h.index_isSome⟩
  intro i p q hp
  cases hp

end Indexed

end StandardIndexedTree
