/-
**Snapshots of an indexed tree.**

The snapshot of an indexed tree also answers with the preimages of its leaves, and searches them
one by one for the greatest key up to a given one, where the tree has an index of its keys.  That
both find the same rests on the keys of the committed leaves: no two of them have one key, and key
zero is that of the first leaf.
-/

import Aztec.IndexedTreeRuns
import Aztec.SnapshotRuns

open Merkle IndexedTreeLeaf List Option

/-! ### Reading a snapshot -/

namespace IndexedTreeSnapshotImpl

section Model

variable {Buffer Leaf Bytes : Type} [IndexedTreeLeaf Leaf] {depth : ℕ} (H : Hasher Buffer Leaf)
  (toBuffer : Preimage Leaf → Bytes) (s : BaseFullTreeSnapshot Buffer (Preimage Leaf) depth)

def getLatestLeafPreimageCopy (index : ℕ) : Option (Preimage Leaf) :=
  (s.getLeafValue H.hash H.zero index).bind fun leafNode => s.leaves (leafNode, index)

def getLeafValue (index : ℕ) : Option Bytes :=
  (getLatestLeafPreimageCopy H s index).map toBuffer

/-- The first loop of `findIndexOfPreviousKey`, over the indices of the leaves: it is left early
with the index of a leaf that has the key. -/
def differences (preimage : ℕ → Option (Preimage Leaf)) (newValue : ℕ) :
    List ℕ → Except ℕ (List ℕ)
  | [] => .ok []
  | i :: indices =>
    match preimage i with
    | none => (differences preimage newValue indices).map (newValue :: ·)
    | some storedLeaf =>
      if storedLeaf.getKey > newValue then
        (differences preimage newValue indices).map (newValue :: ·)
      else if storedLeaf.getKey = newValue then .error i
      else (differences preimage newValue indices).map ((newValue - storedLeaf.getKey) :: ·)

/-- The second loop of `findIndexOfPreviousKey`: the first index of a smallest difference. -/
def minIndex (diff : List ℕ) : ℕ :=
  (List.range' 1 (diff.length - 1)).foldl
    (fun minIndex i => if diff.getD i 0 < diff.getD minIndex 0 then i else minIndex) 0

def findIndexOfPreviousKey (newValue : ℕ) : ℕ × Bool :=
  match differences (getLatestLeafPreimageCopy H s) newValue (List.range s.getNumLeaves) with
  | .error i => (i, true)
  | .ok diff => (minIndex diff, false)

end Model

/-! ### Searching a snapshot -/

section Search

variable {Leaf : Type} [IndexedTreeLeaf Leaf] {preimage : ℕ → Option (Preimage Leaf)}
  {newValue : ℕ}

/-- The difference for a leaf that does not have the key. -/
def difference (preimage : ℕ → Option (Preimage Leaf)) (newValue i : ℕ) : ℕ :=
  match preimage i with
  | none => newValue
  | some p => if p.getKey > newValue then newValue else newValue - p.getKey

theorem differences_eq (indices : List ℕ) :
    (differences preimage newValue indices = .ok (indices.map (difference preimage newValue)) ∧
        ∀ i ∈ indices, ∀ p, preimage i = some p → p.getKey ≠ newValue) ∨
      ∃ i ∈ indices, ∃ p, preimage i = some p ∧ p.getKey = newValue ∧
        differences preimage newValue indices = .error i := by
  induction indices with
  | nil => exact .inl ⟨rfl, by simp⟩
  | cons i indices ih =>
    have hcons : ∀ d, (∀ p, preimage i = some p → p.getKey ≠ newValue) →
        d = difference preimage newValue i →
        differences preimage newValue (i :: indices) =
          (differences preimage newValue indices).map (d :: ·) →
        (differences preimage newValue (i :: indices) =
            .ok ((i :: indices).map (difference preimage newValue)) ∧
          ∀ j ∈ i :: indices, ∀ p, preimage j = some p → p.getKey ≠ newValue) ∨
        ∃ j ∈ i :: indices, ∃ p, preimage j = some p ∧ p.getKey = newValue ∧
          differences preimage newValue (i :: indices) = .error j := by
      intro d hne hd hstep
      rw [hstep]
      rcases ih with ⟨hok, hall⟩ | ⟨j, hj, p, hp, hkey, herror⟩
      · rw [hok]
        refine .inl ⟨by rw [map_cons, ← hd]; rfl, ?_⟩
        intro j hj
        rcases mem_cons.1 hj with rfl | hj
        · exact hne
        · exact hall j hj
      · exact .inr ⟨j, mem_cons_of_mem _ hj, p, hp, hkey, by rw [herror]; rfl⟩
    cases hp : preimage i with
    | none =>
      refine hcons newValue (fun p h => ?_) (by rw [difference, hp]) (by rw [differences, hp])
      rw [hp] at h
      cases h
    | some p =>
      rcases lt_trichotomy p.getKey newValue with hlt | heq | hgt
      · refine hcons (newValue - p.getKey) (fun q h => ?_) ?_ ?_
        · rw [hp, some.injEq] at h
          exact h ▸ hlt.ne
        · simp only [difference, hp, if_neg (not_lt.2 hlt.le)]
        · simp only [differences, hp, if_neg (not_lt.2 hlt.le), if_neg hlt.ne]
      · refine .inr ⟨i, mem_cons_self, p, hp, heq, ?_⟩
        simp only [differences, hp, if_neg (not_lt.2 heq.le), if_pos heq]
      · refine hcons newValue (fun q h => ?_) ?_ ?_
        · rw [hp, some.injEq] at h
          exact h ▸ hgt.ne'
        · simp only [difference, hp, if_pos hgt]
        · simp only [differences, hp, if_pos hgt]

theorem minIndex_eq {diff : List ℕ} {m : ℕ} (hm : m < diff.length)
    (hmin : ∀ j < diff.length, diff.getD m 0 ≤ diff.getD j 0)
    (hfirst : ∀ j < m, diff.getD m 0 < diff.getD j 0) : minIndex diff = m := by
  set turn := fun minIndex i => if diff.getD i 0 < diff.getD minIndex 0 then i else minIndex
    with hturn
  have hloop : ∀ n, n < diff.length → (range' 1 n).foldl turn 0 ≤ n ∧
      (m ≤ n → (range' 1 n).foldl turn 0 = m) := by
    intro n
    induction n with
    | zero => exact fun _ => ⟨le_rfl, fun h => (Nat.le_zero.1 h).symm⟩
    | succ n ih =>
      intro hn
      obtain ⟨hle, heq⟩ := ih (by omega)
      rw [range'_1_concat, foldl_append, foldl_cons, foldl_nil,
        Nat.add_comm 1 n]
      simp only [hturn] at hle heq ⊢
      split
      · next hlt =>
        refine ⟨le_rfl, fun hmn => ?_⟩
        by_contra hne
        rw [heq (by omega)] at hlt
        exact absurd (hmin (n + 1) hn) (not_le.2 hlt)
      · next hge =>
        refine ⟨by omega, fun hmn => ?_⟩
        by_contra hne
        rcases Nat.lt_or_ge n m with hlt | hmn
        · obtain rfl : m = n + 1 := by omega
          exact hge (hfirst _ (by omega))
        · exact hne (heq hmn)
  exact (hloop (diff.length - 1) (by omega)).2 (by omega)

end Search

end IndexedTreeSnapshotImpl

/-! ### What the leaves of a tree stand for -/

namespace StandardIndexedTree

section Recorded

variable {Buffer Leaf : Type} [IndexedTreeLeaf Leaf] {depth : ℕ}

/-- The leaves encode the preimages, except for those with key zero that fill up a subtree. -/
structure Encodes (H : Hasher Buffer Leaf) (view : ℕ → Option (Preimage Leaf)) (f : ℕ → Buffer) :
    Prop where
  none_eq : ∀ {i}, view i = none → f i = H.zero
  some_eq : ∀ {i p}, view i = some p → (p.getKey = 0 → i = 0) → f i = H.hashInputs p

/-- **The leaves of the tree encode its preimages, under distinct keys.** -/
structure Recorded (H : Hasher Buffer Leaf) (t : StandardIndexedTree Buffer Leaf depth) : Prop where
  indexed : Indexed t
  zero : t.leafIndex 0 = some 0
  contents : ∃ f g, TreeBase.Contents H.hash H.zero t.toTreeBase f g ∧ Encodes H t.leaves f ∧
    Encodes H t.visible g
  distinct : ∀ {i j p q}, t.visible i = some p → t.visible j = some q → p.getKey = q.getKey →
    p.getKey ≠ 0 → i = j
  stored_zero : ∀ {i p}, t.leaves i = some p → p.getKey = 0 → i = 0

variable {H : Hasher Buffer Leaf} {t t' : StandardIndexedTree Buffer Leaf depth} {i : ℕ}
  {p q : Preimage Leaf}

theorem Recorded.stored_unique (h : Recorded H t) {j : ℕ} (hp : t.leaves i = some p)
    (hq : t.leaves j = some q) (hkey : p.getKey = q.getKey) : i = j := by
  by_cases hzero : p.getKey = 0
  · rw [h.stored_zero hp hzero, h.stored_zero hq (hkey ▸ hzero)]
  · obtain ⟨p', hp', hkey'⟩ := h.indexed.visible_of_stored hp
    obtain ⟨q', hq', hkey''⟩ := h.indexed.visible_of_stored hq
    exact h.distinct hp' hq' (by rw [hkey', hkey'', hkey]) (hkey' ▸ hzero)

theorem Recorded.pos (h : Recorded H t) : 0 < t.getNumLeaves true := by
  obtain ⟨p, hp, -⟩ := h.indexed.index_some h.zero
  exact lt_of_lt_of_le ((h.indexed.stored_isSome 0).1 (isSome_iff_exists.2 ⟨p, hp⟩))
    h.indexed.size_le

theorem Recorded.getLeafValue_eq (h : Recorded H t) :
    Encodes H t.leaves fun i => t.toTreeBase.getLeafValue H.hash H.zero i false := by
  obtain ⟨f, g, hcontents, hleaves, -⟩ := h.contents
  have hleaf : (fun i => t.toTreeBase.getLeafValue H.hash H.zero i false) = f :=
    funext fun i => hcontents.getLeafValue i false
  exact hleaf.symm ▸ hleaves

theorem Recorded.hashInputs_eq (h : Recorded H t) (hp : t.leaves i = some p) :
    t.toTreeBase.getLeafValue H.hash H.zero i false = H.hashInputs p :=
  h.getLeafValue_eq.some_eq hp (h.stored_zero hp)

theorem getKey_of_update {view : ℕ → Option (Preimage Leaf)} (hp : view i = some p)
    (hkey : q.getKey = p.getKey) {j : ℕ} {r : Preimage Leaf}
    (hr : Function.update view i (some q) j = some r) :
    ∃ r', view j = some r' ∧ r'.getKey = r.getKey := by
  rw [Function.update_apply] at hr
  split at hr
  · next hj => exact ⟨p, hj ▸ hp, by rw [← some.inj hr, hkey]⟩
  · exact ⟨r, hr, rfl⟩

theorem Recorded.updateLeaf (h : Recorded H t) (hp : t.visible i = some p)
    (hkey : q.getKey = p.getKey) (hupdate : t.updateLeaf H q i = .ok t') :
    Recorded H t' ∧ SameStores t t' ∧ t'.visible = Function.update t.visible i (some q) ∧
      t'.getNumLeaves true = t.getNumLeaves true := by
  obtain ⟨t'', ht'', hindexed, hsame, hvisible, hnum, hbase⟩ := h.indexed.updateLeaf H hp hkey
  obtain rfl : t' = t'' := Except.ok.inj (hupdate.symm.trans ht'')
  have hkeys := @getKey_of_update Leaf _ i p q t.visible hp hkey
  rw [← hvisible] at hkeys
  refine ⟨⟨hindexed, hsame.leafIndex_eq ▸ h.zero, ?_, ?_, ?_⟩, hsame, hvisible, hnum⟩
  · obtain ⟨f, g, hcontents, hleaves, hview⟩ := h.contents
    refine ⟨f, _, hbase ▸ hcontents.addLeafToCacheAndHashToRoot _ i, hsame.leaves_eq ▸ hleaves, ?_⟩
    rw [hvisible]
    constructor
    · intro j hj
      rw [Function.update_apply] at hj ⊢
      split at hj
      · cases hj
      · next hne => rw [if_neg hne, hview.none_eq hj]
    · intro j r hr hzero'
      rw [Function.update_apply] at hr ⊢
      split at hr
      · next heq =>
        rw [if_pos heq, ← some.inj hr]
        rfl
      · next hne => rw [if_neg hne, hview.some_eq hr hzero']
  · intro j j' r r' hr hr' hkey' hne
    obtain ⟨s, hs, hskey⟩ := hkeys hr
    obtain ⟨s', hs', hskey'⟩ := hkeys hr'
    exact h.distinct hs hs' (by rw [hskey, hskey', hkey']) (hskey ▸ hne)
  · rw [hsame.leaves_eq]
    exact h.stored_zero

/-- Preimages with keys, unless they are zero, that neither the tree nor the others have. -/
def FreshKeys (t : StandardIndexedTree Buffer Leaf depth) (pending : List (Preimage Leaf)) : Prop :=
  ∀ (a : ℕ) (q : Preimage Leaf), pending[a]? = some q → q.getKey ≠ 0 →
    (∀ j p, t.visible j = some p → p.getKey ≠ q.getKey) ∧
      ∀ (b : ℕ) (q' : Preimage Leaf), pending[b]? = some q' → q'.getKey = q.getKey → b = a

theorem Recorded.append (h : Recorded H t) {pending : List (Preimage Leaf)}
    (hfits : t.getNumLeaves true + pending.length ≤ 2 ^ depth) (hnew : FreshKeys t pending) :
    ∃ t', t.encodeAndAppendLeaves H pending false = (t', .ok ()) ∧ Recorded H t' ∧
      SameStores t t' := by
  obtain ⟨t', ht', hindexed, hsame, hvisible, -, hbase⟩ :=
    h.indexed.encodeAndAppendLeaves H pending false hfits
  have hview : ∀ j, t'.visible j = if t.getNumLeaves true ≤ j then
      pending[j - t.getNumLeaves true]? else t.visible j := by
    intro j
    rw [hvisible, writePreimages]
    split
    · next hj =>
      have hnone : t.visible j = none := by
        rw [← not_isSome_iff_eq_none, h.indexed.visible_isSome]
        omega
      rw [hnone, or_none]
    · rfl
  refine ⟨t', ht', ⟨hindexed, hsame.leafIndex_eq ▸ h.zero, ?_, ?_, ?_⟩, hsame⟩
  · obtain ⟨f, g, hcontents, hleaves, hg⟩ := h.contents
    refine ⟨f, _, hcontents.appendLeaves hbase, hsame.leaves_eq ▸ hleaves, ?_⟩
    constructor
    · intro j hj
      rw [hview] at hj
      rw [TreeBase.writeLeaves]
      split at hj
      · next hle =>
        have hnone : t.visible j = none := by
          rw [← not_isSome_iff_eq_none, h.indexed.visible_isSome]
          omega
        rw [if_pos hle, getElem?_map, hj, map_none, getD_none, hg.none_eq hnone]
      · next hlt => rw [if_neg hlt, hg.none_eq hj]
    · intro j r hr hzero
      rw [hview] at hr
      rw [TreeBase.writeLeaves]
      split at hr
      · next hle =>
        have hpos := h.pos
        have hne : r.getKey ≠ 0 := fun h0 => by have := hzero h0; omega
        rw [if_pos hle, getElem?_map, hr, map_some, getD_some, encodeLeaf]
        simp [hne]
      · next hlt => rw [if_neg hlt, hg.some_eq hr hzero]
  · intro j j' r r' hr hr' hkey hne
    rw [hview] at hr hr'
    split at hr
    · next hj =>
      split at hr'
      · next hj' =>
        have := (hnew _ _ hr hne).2 _ r' hr' hkey.symm
        omega
      · exact absurd hkey.symm ((hnew _ _ hr hne).1 j' r' hr')
    · split at hr'
      · exact absurd hkey ((hnew _ _ hr' (hkey ▸ hne)).1 j r hr)
      · exact h.distinct hr hr' hkey hne
  · rw [hsame.leaves_eq]
    exact h.stored_zero

theorem Recorded.commit (h : Recorded H t)
    (hzero : ∀ i p, t.cachedLeafPreimages.get i = some p → p.getKey = 0 → i = 0) :
    Recorded H t.commit := by
  refine ⟨h.indexed.commit, ?_, ?_, ?_, ?_⟩
  · rcases leafIndex_commit t 0 with ⟨hsame, -⟩ | ⟨i, p, hp, hkey, hsome⟩
    · rw [hsame, h.zero]
    · rw [hsome, hzero i p hp hkey]
  · obtain ⟨f, g, hcontents, -, hview⟩ := h.contents
    refine ⟨g, g, ?_, ?_, ?_⟩
    · rw [toTreeBase_commit]
      exact hcontents.commit
    · rwa [leaves_commit]
    · rwa [visible_commit]
  · rw [visible_commit]
    exact h.distinct
  · intro i p hp hkey
    rw [leaves_commit, visible_eq, or_eq_some_iff] at hp
    rcases hp with hp | ⟨-, hp⟩
    · exact hzero i p hp hkey
    · exact h.stored_zero hp hkey

theorem Recorded.rollback (h : Recorded H t) : Recorded H t.rollback := by
  refine ⟨h.indexed.rollback, h.zero, ?_, ?_, h.stored_zero⟩
  · obtain ⟨f, g, hcontents, hleaves, -⟩ := h.contents
    exact ⟨f, f, hcontents.rollback, hleaves, visible_rollback t ▸ hleaves⟩
  · intro i j p q hp hq hkey _
    rw [visible_rollback] at hp hq
    exact h.stored_unique hp hq hkey

/-! ### Batches -/

/-- **What a turn of `batchInsert` does**: it changes a leaf without changing its key, and puts an
empty preimage or one with a new key to those to come. -/
structure Turn (H : Hasher Buffer Leaf) (s s' : Insertion Buffer Leaf depth) (leaf : Leaf) (m : ℕ)
    (i : ℕ) (p low new : Preimage Leaf) : Prop where
  found : s.tree.visible i = some p
  key_eq : low.getKey = p.getKey
  updated : s.tree.updateLeaf H low i = .ok s'.tree
  not_inserted : getKey leaf ∉ s.insertedKeys
  inserted : s'.insertedKeys = getKey leaf :: s.insertedKeys
  pending : s'.pendingInsertionSubtree = s.pendingInsertionSubtree.set m new
  cases : new.getKey = 0 ∨
    (new.getKey = getKey leaf ∧ ∀ j q, s.tree.visible j = some q → q.getKey ≠ getKey leaf)

theorem Recorded.insertTurn {s : Insertion Buffer Leaf depth} (h : Recorded H s.tree) (start : ℕ)
    (leaf : Leaf) (m j : ℕ) : insertTurn H start s ((leaf, m), j) = .ok s ∨
      (∃ outcome, insertTurn H start s ((leaf, m), j) = .error (s.tree, outcome)) ∨
      ∃ s' i p low new, insertTurn H start s ((leaf, m), j) = .ok s' ∧
        Turn H s s' leaf m i p low new := by
  cases hempty : isEmpty leaf with
  | true => exact .inl (by simp [StandardIndexedTree.insertTurn, hempty])
  | false =>
    by_cases hdup : getKey leaf ∈ s.insertedKeys
    · refine .inr (.inl ⟨some "Cannot insert duplicated keys in the same batch", ?_⟩)
      simp only [StandardIndexedTree.insertTurn, hempty, Bool.false_eq_true, if_false, if_pos hdup]
    · obtain ⟨i, p, hp, hle, hmax, -, hfind⟩ :=
        h.indexed.findIndexOfPreviousKey_eq (by rw [h.zero]; rfl) (getKey leaf)
      have hlow : lowLeaf (some i) (fun index => s.tree.getLatestLeafPreimageCopy index true) =
          some (i, p) := by
        change (s.tree.visible i).map _ = _
        rw [hp]
        rfl
      by_cases hkey : p.getKey = getKey leaf
      · cases hto : updateTo p.leaf leaf with
        | error msg =>
          refine .inr (.inl ⟨some msg, ?_⟩)
          simp only [StandardIndexedTree.insertTurn, hempty, Bool.false_eq_true, if_false,
            if_neg hdup, hfind, map_some, hlow, any_some, hkey, decide_true,
            if_true, hto]
        | ok updated =>
          obtain ⟨-, rfl⟩ := (updateTo_eq_ok hkey).1 hto
          obtain ⟨t', ht', -⟩ := h.indexed.updateLeaf H
            (q := ⟨updated, p.nextKey, p.nextIndex⟩) hp hkey.symm
          refine .inr (.inr ⟨⟨t', getKey updated :: s.insertedKeys,
            s.lowLeavesWitnesses.set j
              ⟨p, i, s.tree.toTreeBase.getSiblingPath H.hash H.zero i true⟩,
            s.pendingInsertionSubtree.set m .empty⟩, i, p,
            ⟨updated, p.nextKey, p.nextIndex⟩, .empty, ?_, hp, hkey.symm, ht', hdup, rfl, rfl,
            .inl Preimage.getKey_empty⟩)
          simp only [StandardIndexedTree.insertTurn, hempty, Bool.false_eq_true, if_false,
            if_neg hdup, hfind, map_some, hlow, any_some, hkey, decide_true,
            if_true, hto, ht']
      · obtain ⟨t', ht', -⟩ := h.indexed.updateLeaf H
          (q := ⟨p.leaf, getKey leaf, start + m⟩) hp rfl
        refine .inr (.inr ⟨⟨t', getKey leaf :: s.insertedKeys,
          s.lowLeavesWitnesses.set j
            ⟨p, i, s.tree.toTreeBase.getSiblingPath H.hash H.zero i true⟩,
          s.pendingInsertionSubtree.set m ⟨leaf, p.nextKey, p.nextIndex⟩⟩, i, p,
          ⟨p.leaf, getKey leaf, start + m⟩, ⟨leaf, p.nextKey, p.nextIndex⟩, ?_, hp, rfl, ht',
          hdup, rfl, rfl, .inr ⟨rfl, fun j q hq heq => hkey ?_⟩⟩)
        · simp only [StandardIndexedTree.insertTurn, hempty, Bool.false_eq_true, if_false,
            if_neg hdup, hfind, map_some, hlow, any_some, decide_eq_false hkey, ht']
        · -- a leaf with the key would have been found
          exact le_antisymm hle (heq ▸ hmax j q hq heq.le)

/-- **The invariant of the loop of `batchInsert`**, for a batch of `n` leaves. -/
structure Turned (H : Hasher Buffer Leaf) (t : StandardIndexedTree Buffer Leaf depth) (n : ℕ)
    (s : Insertion Buffer Leaf depth) : Prop where
  recorded : Recorded H s.tree
  same : SameStores t s.tree
  size_eq : s.tree.getNumLeaves true = t.getNumLeaves true
  pending_length : s.pendingInsertionSubtree.length = n
  inserted : ∀ q ∈ s.pendingInsertionSubtree, q.getKey ≠ 0 → q.getKey ∈ s.insertedKeys
  fresh : FreshKeys s.tree s.pendingInsertionSubtree

theorem Turned.turn {n : ℕ} {s s' : Insertion Buffer Leaf depth} (h : Turned H t n s)
    {leaf : Leaf} {m : ℕ} {low new : Preimage Leaf} (hturn : Turn H s s' leaf m i p low new) :
    Turned H t n s' := by
  obtain ⟨hrecorded, hsame, hvisible, hnum⟩ :=
    h.recorded.updateLeaf hturn.found hturn.key_eq hturn.updated
  have hkeys := @getKey_of_update Leaf _ i p low s.tree.visible hturn.found hturn.key_eq
  rw [← hvisible] at hkeys
  have hpending : ∀ {a : ℕ} {r : Preimage Leaf}, s'.pendingInsertionSubtree[a]? = some r →
      (a = m ∧ r = new) ∨ (a ≠ m ∧ s.pendingInsertionSubtree[a]? = some r) := by
    intro a r hr
    rw [hturn.pending, getElem?_set] at hr
    split at hr
    · next heq =>
      split at hr
      · exact .inl ⟨heq.symm, (some.inj hr).symm⟩
      · cases hr
    · next hne => exact .inr ⟨Ne.symm hne, hr⟩
  -- the key of the new preimage is not among those to come
  have hnot : ∀ {a : ℕ} {r : Preimage Leaf}, s.pendingInsertionSubtree[a]? = some r →
      r.getKey ≠ 0 → r.getKey ≠ getKey leaf := by
    intro a r hr hne heq
    exact hturn.not_inserted (heq ▸ h.inserted r (mem_of_getElem? hr) hne)
  refine ⟨hrecorded, h.same.trans hsame, hnum.trans h.size_eq, ?_, ?_, ?_⟩
  · rw [hturn.pending, length_set, h.pending_length]
  · intro q hq hne
    obtain ⟨a, ha⟩ := mem_iff_getElem?.1 hq
    rw [hturn.inserted]
    rcases hpending ha with ⟨-, rfl⟩ | ⟨-, ha⟩
    · rcases hturn.cases with hzero | ⟨hkey, -⟩
      · exact absurd hzero hne
      · exact hkey ▸ mem_cons_self
    · exact mem_cons_of_mem _ (h.inserted q (mem_of_getElem? ha) hne)
  · intro a q hq hne
    rcases hpending hq with ⟨rfl, rfl⟩ | ⟨ham, hq⟩
    · rcases hturn.cases with hzero | ⟨hkey, habsent⟩
      · exact absurd hzero hne
      · refine ⟨fun j r hr heq => ?_, fun b q' hq' heq => ?_⟩
        · obtain ⟨r', hr', hkey'⟩ := hkeys hr
          exact habsent j r' hr' (by rw [hkey', heq, hkey])
        · rcases hpending hq' with ⟨rfl, -⟩ | ⟨-, hq'⟩
          · rfl
          · exact absurd (heq.trans hkey) (hnot hq' (heq ▸ hne))
    · obtain ⟨habsent, hunique⟩ := h.fresh a q hq hne
      refine ⟨fun j r hr heq => ?_, fun b q' hq' heq => ?_⟩
      · obtain ⟨r', hr', hkey'⟩ := hkeys hr
        exact habsent j r' hr' (by rw [hkey', heq])
      · rcases hpending hq' with ⟨rfl, rfl⟩ | ⟨-, hq'⟩
        · rcases hturn.cases with hzero | ⟨hkey, -⟩
          · exact absurd (heq.symm.trans hzero) hne
          · exact absurd (heq.symm.trans hkey) (hnot hq hne)
        · exact hunique b q' hq' heq

theorem Recorded.batchInsert (h : Recorded H t) {leaves : List Leaf}
    (hfits : t.getNumLeaves true + leaves.length ≤ 2 ^ depth) (subtreeHeight : ℕ) :
    Recorded H (t.batchInsert H leaves subtreeHeight).1 ∧
      SameStores t (t.batchInsert H leaves subtreeHeight).1 := by
  have hstart : Turned H t leaves.length
      { tree := t, insertedKeys := []
        lowLeavesWitnesses := replicate leaves.length (getEmptyLowLeafWitness H depth)
        pendingInsertionSubtree := replicate leaves.length .empty } := by
    have hempty : ∀ q ∈ replicate leaves.length (.empty : Preimage Leaf), q.getKey = 0 := by
      intro q hq
      rw [eq_of_mem_replicate hq, Preimage.getKey_empty]
    refine ⟨h, SameStores.refl t, rfl, by simp, fun q hq hne => absurd (hempty q hq) hne, ?_⟩
    intro a q hq hne
    exact absurd (hempty q (mem_of_getElem? hq)) hne
  have hstep : ∀ before e after s s', (sortedDescendingLeafTuples leaves).zipIdx =
      before ++ e :: after → Turned H t leaves.length s →
        StandardIndexedTree.insertTurn H (t.getNumLeaves true) s e = .ok s' →
          Turned H t leaves.length s' := by
    rintro before ⟨⟨leaf, m⟩, j⟩ after s s' - hturned hok
    rcases hturned.recorded.insertTurn (t.getNumLeaves true) leaf m j with
      hskip | ⟨outcome, herror⟩ | ⟨s'', i, p, low, new, hok', hturn⟩
    · obtain rfl : s = s' := Except.ok.inj (hskip.symm.trans hok)
      exact hturned
    · rw [herror] at hok
      cases hok
    · obtain rfl : s'' = s' := Except.ok.inj (hok'.symm.trans hok)
      exact hturned.turn hturn
  simp only [StandardIndexedTree.batchInsert]
  rcases Failing.foldlM_cases (fun _ s => Turned H t leaves.length s) hstart hstep with
    ⟨s, hs, hturned⟩ | ⟨before, ⟨⟨leaf, m⟩, j⟩, after, s, e, -, hturned, hfail, hs⟩
  · have hroom : s.tree.getNumLeaves true + s.pendingInsertionSubtree.length ≤ 2 ^ depth := by
      rwa [hturned.size_eq, hturned.pending_length]
    obtain ⟨t', ht', hrecorded, hsame⟩ := hturned.recorded.append hroom hturned.fresh
    rw [hs]
    simp only [ht']
    exact ⟨hrecorded, hturned.same.trans hsame⟩
  · rw [hs]
    have htree : e.1 = s.tree := by
      rcases hturned.recorded.insertTurn (t.getNumLeaves true) leaf m j with
        hskip | ⟨outcome, herror⟩ | ⟨s'', i, p, low, new, hok, -⟩
      · rw [hskip] at hfail
        cases hfail
      · rw [herror] at hfail
        rw [← Except.error.inj hfail]
      · rw [hok] at hfail
        cases hfail
    obtain ⟨tree, outcome⟩ := e
    obtain rfl : tree = s.tree := htree
    cases outcome with
    | none => exact ⟨hturned.recorded, hturned.same⟩
    | some msg => exact ⟨hturned.recorded, hturned.same⟩

theorem recorded_init {prefilledSize : ℕ} (hinit : (new H depth).init H prefilledSize = .ok t) :
    Recorded H t := by
  have hpos : 1 ≤ prefilledSize := by
    by_contra hlt
    rw [init, if_pos (by omega)] at hinit
    cases hinit
  have hfits : prefilledSize ≤ 2 ^ depth := by
    cases happend : (new H depth : StandardIndexedTree Buffer Leaf depth).toTreeBase.appendLeaves
        H.hash H.zero ((prefilled prefilledSize).map fun p => encodeLeaf H p true) with
    | error msg =>
      rw [init, if_neg (by omega), encodeAndAppendLeaves] at hinit
      simp only [happend] at hinit
      cases hinit
    | ok base =>
      have hroom := (TreeBase.appendLeaves_same happend).2.2
      rw [length_map, length_prefilled] at hroom
      exact le_of_add_le_right hroom
  obtain ⟨t₂, ht₂, hindexed, -, -, hzero, -⟩ := init_eq H hpos hfits
  obtain rfl : t₂ = t := Except.ok.inj (ht₂.symm.trans hinit)
  have hroom : (new H depth : StandardIndexedTree Buffer Leaf depth).getNumLeaves true +
      (prefilled prefilledSize : List (Preimage Leaf)).length ≤ 2 ^ depth := by
    rw [length_prefilled]
    change 0 + prefilledSize ≤ _
    omega
  obtain ⟨t₁, ht₁, -, -, hvisible, -, hbase⟩ :=
    (indexed_new H depth).encodeAndAppendLeaves H (prefilled prefilledSize) true hroom
  rw [init, if_neg (by omega), ht₁] at hinit
  obtain rfl : t₁.commit = t₂ := Except.ok.inj hinit
  have hview : t₁.visible = fun i => (prefilled prefilledSize)[i]? := by
    rw [hvisible]
    funext i
    change (if 0 ≤ i then ((prefilled prefilledSize)[i - 0]?).or none else none) = _
    rw [if_pos (Nat.zero_le i), Nat.sub_zero, or_none]
  have hleaves : t₁.commit.leaves = fun i => (prefilled prefilledSize)[i]? := by
    rw [leaves_commit, hview]
  have hencodes : Encodes H (fun i => (prefilled prefilledSize : List (Preimage Leaf))[i]?)
      (TreeBase.writeLeaves (fun _ => H.zero) 0
        ((prefilled prefilledSize).map fun p => encodeLeaf H p true)) := by
    constructor
    · intro i hi
      simp [TreeBase.writeLeaves, hi]
    · intro i p hp _
      simp [TreeBase.writeLeaves, hp, encodeLeaf]
  refine ⟨hindexed, hzero, ?_, ?_, ?_⟩
  · have hcontents := (TreeBase.contents_new.appendLeaves hbase).commit
    rw [← toTreeBase_commit] at hcontents
    refine ⟨_, _, hcontents, ?_, ?_⟩
    · rw [hleaves]
      exact hencodes
    · rw [visible_commit, hview]
      exact hencodes
  · intro i j p q hp hq hkey _
    rw [visible_commit, hview] at hp hq
    rw [← (getKey_prefilled hp).2, ← (getKey_prefilled hq).2, hkey]
  · intro i p hp hkey
    rw [hleaves] at hp
    rw [← (getKey_prefilled hp).2, hkey]

end Recorded

end StandardIndexedTree

/-! ### The search of a snapshot -/

namespace IndexedTreeSnapshotImpl

open StandardIndexedTree

variable {Buffer Leaf : Type} [IndexedTreeLeaf Leaf] {depth : ℕ} {H : Hasher Buffer Leaf}
  {t : StandardIndexedTree Buffer Leaf depth}
  {s : BaseFullTreeSnapshot Buffer (Preimage Leaf) depth}

theorem findIndexOfPreviousKey_eq (h : Recorded H t)
    (hcopy : ∀ index < 2 ^ depth, getLatestLeafPreimageCopy H s index = t.leaves index)
    (hnum : s.getNumLeaves = t.getNumLeaves false) (k : ℕ) :
    t.findIndexOfPreviousKey k false = some (findIndexOfPreviousKey H s k) := by
  have hsize : t.getNumLeaves false ≤ 2 ^ depth := h.indexed.size_le.trans h.indexed.fits
  have hstored : ∀ {j}, j < t.getNumLeaves false →
      ∃ q, t.leaves j = some q ∧ getLatestLeafPreimageCopy H s j = some q := by
    intro j hj
    obtain ⟨q, hq⟩ := isSome_iff_exists.1 ((h.indexed.stored_isSome j).2 hj)
    exact ⟨q, hq, (hcopy j (by omega)).trans hq⟩
  obtain ⟨i, p, hlow, hp, hle, -, hmax⟩ :=
    h.indexed.getDbLowLeafIndex_eq (by rw [h.zero]; rfl) k
  have hi : i < t.getNumLeaves false :=
    (h.indexed.stored_isSome i).1 (isSome_iff_exists.2 ⟨p, hp⟩)
  have hpi : getLatestLeafPreimageCopy H s i = some p := (hcopy i (by omega)).trans hp
  have htree : t.findIndexOfPreviousKey k false = some (i, decide (p.getKey = k)) := by
    simp only [StandardIndexedTree.findIndexOfPreviousKey, hlow, Bool.false_eq_true, if_false]
    rfl
  rw [htree, findIndexOfPreviousKey, hnum]
  rcases @differences_eq Leaf _ (getLatestLeafPreimageCopy H s) k
    (range (t.getNumLeaves false)) with ⟨hdiff, hall⟩ | ⟨j, hj, q, hq, hkey, hdiff⟩
  · rw [hdiff]
    have hlt : p.getKey < k := lt_of_le_of_ne hle (hall i (mem_range.2 hi) p hpi)
    have hget : ∀ {j}, j < t.getNumLeaves false →
        ((range (t.getNumLeaves false)).map
          (difference (getLatestLeafPreimageCopy H s) k)).getD j 0 =
            difference (getLatestLeafPreimageCopy H s) k j := by
      intro j hj
      simp [hj]
    have hpd : difference (getLatestLeafPreimageCopy H s) k i = k - p.getKey := by
      simp only [difference, hpi, if_neg (not_lt.2 hle)]
    -- the keys up to `k` are not greater than the one found
    have hother : ∀ {j}, j < t.getNumLeaves false →
        difference (getLatestLeafPreimageCopy H s) k j = k ∨
          ∃ q, t.leaves j = some q ∧ q.getKey ≤ p.getKey ∧
            difference (getLatestLeafPreimageCopy H s) k j = k - q.getKey := by
      intro j hj
      obtain ⟨q, hq, hqj⟩ := hstored hj
      by_cases hgt : q.getKey > k
      · exact .inl (by simp only [difference, hqj, if_pos hgt])
      · exact .inr ⟨q, hq, hmax j q hq (not_lt.1 hgt),
          by simp only [difference, hqj, if_neg hgt]⟩
    rw [decide_eq_false hlt.ne]
    refine congrArg (fun m => some (m, false)) (minIndex_eq (by simpa using hi) ?_ ?_).symm
    · intro j hj
      have hj : j < t.getNumLeaves false := by simpa using hj
      rw [hget hi, hget hj, hpd]
      rcases hother hj with heq | ⟨q, -, hqle, heq⟩
      · omega
      · omega
    · intro j hj
      rw [hget hi, hget (hj.trans hi), hpd]
      rcases hother (hj.trans hi) with heq | ⟨q, hq, hqle, heq⟩
      · have hne : p.getKey ≠ 0 := fun h0 => by
          have := h.stored_zero hp h0
          omega
        omega
      · have hne : q.getKey ≠ p.getKey := fun heq => by
          have := h.stored_unique hq hp heq
          omega
        omega
  · rw [hdiff]
    have hj : j < t.getNumLeaves false := mem_range.1 hj
    obtain ⟨q', hq', hqj⟩ := hstored hj
    obtain rfl : q' = q := some.inj (hqj.symm.trans hq)
    have hpk : p.getKey = k := le_antisymm hle (hkey ▸ hmax j q' hq' hkey.le)
    rw [decide_eq_true hpk, h.stored_unique hp hq' (hpk.trans hkey.symm)]

end IndexedTreeSnapshotImpl

/-! ### Runs with snapshots -/

namespace SparseTree

/-- The snapshot of a block of a sparse tree answers as the committed tree did. -/
def Faithful {Buffer : Type} {depth : ℕ} (hash : Buffer → Buffer → Buffer) (initialLeaf : Buffer)
    (builder : BaseFullTreeSnapshotBuilder Buffer Empty) (block : ℕ)
    (tree : TreeBase Buffer depth) : Prop :=
  ∃ snapshot : BaseFullTreeSnapshot Buffer Empty depth,
    builder.getSnapshot depth block = .ok snapshot ∧
      FullSnapshots.Answers hash initialLeaf snapshot tree

end SparseTree

namespace StandardIndexedTree

section Model

variable {Buffer Leaf Bytes : Type} [IndexedTreeLeaf Leaf] {depth : ℕ} (H : Hasher Buffer Leaf)
  (toBuffer : Preimage Leaf → Bytes)

def getLeafValue (t : StandardIndexedTree Buffer Leaf depth) (index : ℕ)
    (includeUncommitted : Bool) : Option Bytes :=
  (t.getLatestLeafPreimageCopy index includeUncommitted).map toBuffer

/-- The snapshot of a block of an indexed tree answers as the committed tree did: its root, and for
every index its sibling path, its leaf value and its preimage; and for every key it finds the leaf
the tree found. -/
structure Reads (snapshot : BaseFullTreeSnapshot Buffer (Preimage Leaf) depth)
    (tree : StandardIndexedTree Buffer Leaf depth) : Prop where
  root : snapshot.getRoot = tree.getRoot false
  siblingPath : ∀ index < 2 ^ depth, snapshot.getSiblingPath H.hash H.zero index =
    tree.getSiblingPath H.hash H.zero index false
  leafValue : ∀ index < 2 ^ depth, IndexedTreeSnapshotImpl.getLeafValue H toBuffer snapshot index =
    tree.getLeafValue toBuffer index false
  leafPreimage : ∀ index < 2 ^ depth,
    IndexedTreeSnapshotImpl.getLatestLeafPreimageCopy H snapshot index =
      tree.getLatestLeafPreimageCopy index false
  previousKey : ∀ key, some (IndexedTreeSnapshotImpl.findIndexOfPreviousKey H snapshot key) =
    tree.findIndexOfPreviousKey key false

def Faithful (builder : BaseFullTreeSnapshotBuilder Buffer (Preimage Leaf)) (block : ℕ)
    (tree : StandardIndexedTree Buffer Leaf depth) : Prop :=
  ∃ snapshot : BaseFullTreeSnapshot Buffer (Preimage Leaf) depth,
    builder.getSnapshot depth block = .ok snapshot ∧ Reads H toBuffer snapshot tree

def act (t : StandardIndexedTree Buffer Leaf depth) :
    Action Leaf → StandardIndexedTree Buffer Leaf depth
  | .batchInsert leaves subtreeHeight => (t.batchInsert H leaves subtreeHeight).1
  | .commit => t.commit
  | .rollback => t.rollback

/-- A batch fits into the tree, and no key zero other than the first one is committed. -/
def Regular (t : StandardIndexedTree Buffer Leaf depth) : Action Leaf → Prop
  | .batchInsert leaves _ => t.getNumLeaves true + leaves.length ≤ 2 ^ depth
  | .commit => ∀ i p, t.cachedLeafPreimages.get i = some p → p.getKey = 0 → i = 0
  | .rollback => True

/-- Inner nodes of the trees differ when they are at different heights, and from the leaves that
have a preimage. -/
def NodesApart (trees : List (StandardIndexedTree Buffer Leaf depth)) : Prop :=
  FullSnapshots.HeightsApart H.hash H.zero (trees.map toTreeBase) ∧
    ∀ t ∈ trees, ∀ t' ∈ trees, ∀ i < 2 ^ depth, (t.leaves i).isSome → ∀ level < depth,
      ∀ j < 2 ^ level, FullSnapshots.nodeOf H.hash H.zero t.toTreeBase depth i ≠
        FullSnapshots.nodeOf H.hash H.zero t'.toTreeBase level j

variable [DecidableEq Buffer]

instance (trees : List (StandardIndexedTree Buffer Leaf depth)) : Decidable (NodesApart H trees) :=
  inferInstanceAs (Decidable (FullSnapshots.HeightsApart H.hash H.zero (trees.map toTreeBase) ∧
    ∀ t ∈ trees, ∀ t' ∈ trees, ∀ i < 2 ^ depth, (t.leaves i).isSome → ∀ level < depth,
      ∀ j < 2 ^ level, FullSnapshots.nodeOf H.hash H.zero t.toTreeBase depth i ≠
        FullSnapshots.nodeOf H.hash H.zero t'.toTreeBase level j))

def runWithSnapshots (t : StandardIndexedTree Buffer Leaf depth)
    (actions : List (FullSnapshots.Action (Action Leaf))) :
    FullSnapshots.State Buffer (Preimage Leaf) (StandardIndexedTree Buffer Leaf depth) :=
  FullSnapshots.run H.hash H.zero toTreeBase leaves (act H) t actions

/-- The changes of a run are regular, and the nodes of the trees taken are apart. -/
def Apart (t : StandardIndexedTree Buffer Leaf depth)
    (actions : List (FullSnapshots.Action (Action Leaf))) : Prop :=
  FullSnapshots.Allowed H.hash H.zero toTreeBase leaves (act H) Regular (NodesApart H)
    ⟨t, .new, []⟩ actions

end Model

section Runs

variable {Buffer Leaf : Type} [IndexedTreeLeaf Leaf] {depth : ℕ} {H : Hasher Buffer Leaf}

/-- The committed leaves of the first tree are those of the second, perhaps with other contents. -/
def KeysKept (t t' : StandardIndexedTree Buffer Leaf depth) : Prop :=
  ∀ {i p}, t.leaves i = some p → ∃ q, t'.leaves i = some q ∧ q.getKey = p.getKey

/-- What is known of the trees of a run: their leaves are recorded, and they are earlier versions
of the last one. -/
def Known (H : Hasher Buffer Leaf) (trees : List (StandardIndexedTree Buffer Leaf depth))
    (tree : StandardIndexedTree Buffer Leaf depth) : Prop :=
  ∀ t ∈ trees ++ [tree], Recorded H t ∧ KeysKept t tree

variable {action : Action Leaf} {trees : List (StandardIndexedTree Buffer Leaf depth)}
  {tree : StandardIndexedTree Buffer Leaf depth}

variable {t : StandardIndexedTree Buffer Leaf depth}

theorem Recorded.act (h : Recorded H t)
    (hregular : Regular t action) :
    Recorded H (act H t action) ∧ KeysKept t (StandardIndexedTree.act H t action) := by
  cases action with
  | batchInsert leaves subtreeHeight =>
    obtain ⟨hrecorded, hsame⟩ := h.batchInsert hregular subtreeHeight
    refine ⟨hrecorded, fun hp => ⟨_, ?_, rfl⟩⟩
    exact hsame.leaves_eq ▸ hp
  | commit =>
    refine ⟨h.commit hregular, fun hp => ?_⟩
    obtain ⟨q, hq, hkey⟩ := h.indexed.visible_of_stored hp
    exact ⟨q, by rw [StandardIndexedTree.act, leaves_commit, hq], hkey⟩
  | rollback => exact ⟨h.rollback, fun hp => ⟨_, hp, rfl⟩⟩

theorem Known.act (h : Known H trees tree) (hregular : Regular tree action) :
    Known H trees (StandardIndexedTree.act H tree action) := by
  obtain ⟨hrecorded, hkept⟩ := (h tree (by simp)).1.act hregular
  intro t ht
  rcases mem_append.1 ht with ht | ht
  · obtain ⟨ht, hkept'⟩ := h t (mem_append_left _ ht)
    refine ⟨ht, fun hp => ?_⟩
    obtain ⟨q, hq, hqkey⟩ := hkept' hp
    obtain ⟨r, hr, hrkey⟩ := hkept hq
    exact ⟨r, hr, hrkey.trans hqkey⟩
  · obtain rfl := mem_singleton.1 ht
    exact ⟨hrecorded, fun hp => ⟨_, hp, rfl⟩⟩

theorem Known.places (hinj : Function.Injective H.hashInputs) (hzero : ∀ p, H.hashInputs p ≠ H.zero)
    {trees : List (StandardIndexedTree Buffer Leaf depth)}
    {tree t t' : StandardIndexedTree Buffer Leaf depth} (h : Known H trees tree)
    (ht : t ∈ trees ++ [tree]) (ht' : t' ∈ trees ++ [tree]) {i j : ℕ} {p : Preimage Leaf}
    (hp : t.leaves i = some p) (heq : t.toTreeBase.getLeafValue H.hash H.zero i false =
      t'.toTreeBase.getLeafValue H.hash H.zero j false) : t'.leaves j = some p ∧ j = i := by
  obtain ⟨hrecorded, hkept⟩ := h t ht
  obtain ⟨hrecorded', hkept'⟩ := h t' ht'
  rw [hrecorded.hashInputs_eq hp] at heq
  cases hq : t'.leaves j with
  | none => exact absurd (heq.trans (hrecorded'.getLeafValue_eq.none_eq hq)) (hzero p)
  | some q =>
    rw [hrecorded'.hashInputs_eq hq] at heq
    obtain rfl := hinj heq
    -- the keys are still at their indices in the last tree
    obtain ⟨r, hr, hrkey⟩ := hkept hp
    obtain ⟨r', hr', hrkey'⟩ := hkept' hq
    exact ⟨rfl, (h tree (by simp)).1.stored_unique hr' hr (hrkey'.trans hrkey.symm)⟩

theorem Recorded.perfect (h : Recorded H t) :
    FullSnapshots.Perfect H.hash H.zero t.toTreeBase := by
  obtain ⟨f, g, hcontents, -, -⟩ := h.contents
  exact FullSnapshots.perfect_of_contents hcontents

theorem Known.compatible (hinj : Function.Injective H.hashInputs)
    (hzero : ∀ p, H.hashInputs p ≠ H.zero) (h : Known H trees tree)
    (hapart : NodesApart H (trees ++ [tree])) : Compatible H.hash H.zero depth
      (FullSnapshots.versions H.hash H.zero toTreeBase leaves (trees ++ [tree])) := by
  have hperfect : ∀ base ∈ (trees ++ [tree]).map toTreeBase,
      FullSnapshots.Perfect H.hash H.zero base := by
    intro base hbase
    obtain ⟨t, ht, rfl⟩ := mem_map.1 hbase
    exact (h t ht).1.perfect
  refine ⟨?_, ?_, ?_, ?_⟩
  · rintro v w ⟨t, ht, rfl⟩ ⟨t', ht', rfl⟩ height height' i j hlt hdepth hi hj
    exact hapart.1.node_ne hperfect (mem_map_of_mem ht) (mem_map_of_mem ht') hlt hdepth
      hi hj
  · rintro v w ⟨t, ht, rfl⟩ ⟨t', ht', rfl⟩ height i j hsome hdepth hj
    have hi : i < 2 ^ depth := lt_of_lt_of_le (((h t ht).1.indexed.stored_isSome i).1 hsome)
      ((h t ht).1.indexed.size_le.trans (h t ht).1.indexed.fits)
    have hne := hapart.2 t ht t' ht' i hi hsome (depth - (height + 1)) (by omega) j hj
    rw [FullSnapshots.nodeOf, FullSnapshots.nodeOf, (h t' ht').1.perfect.latest _ (Nat.sub_le _ _),
      Nat.sub_sub_self (by omega)] at hne
    exact hne
  · rintro v w ⟨t, ht, rfl⟩ ⟨t', ht', rfl⟩ i j p hp - heq
    exact h.places hinj hzero ht ht' hp heq
  · rintro v ⟨t, ht, rfl⟩ i hsome
    obtain ⟨p, hp⟩ := isSome_iff_exists.1 hsome
    have hleaf := (h t ht).1.hashInputs_eq hp
    exact fun heq => hzero p (hleaf.symm.trans heq)

variable [DecidableEq Buffer]

theorem runWithSnapshots_sound (hH : Function.Injective2 H.hash)
    (hinj : Function.Injective H.hashInputs) (hzero : ∀ p, H.hashInputs p ≠ H.zero) (ht : Recorded H t)
    (actions : List (FullSnapshots.Action (Action Leaf)))
    (hblocks : (FullSnapshots.blocks actions).Pairwise (· < ·)) (hapart : Apart H t actions) :
    FullSnapshots.Sound H.hash H.zero toTreeBase leaves (runWithSnapshots H t actions) ∧
      ∀ entry ∈ (runWithSnapshots H t actions).taken, Recorded H entry.2 := by
  have hstart : Known H [] t := by
    intro t' ht'
    obtain rfl := mem_singleton.1 ht'
    exact ⟨ht, fun hp => ⟨_, hp, rfl⟩⟩
  obtain ⟨hsound, hknown⟩ := FullSnapshots.Sound.run (K := Known H) hH
    (fun hknown hregular => hknown.act hregular)
    (fun hknown t ht => hknown t (by simpa using ht))
    (fun hknown => (hknown _ (by simp)).1.perfect)
    (fun hknown happart => hknown.compatible hinj hzero happart) actions
    (FullSnapshots.sound_new t) hstart hblocks (fun entry hentry => by cases hentry) hapart
  refine ⟨hsound, fun entry hentry => (hknown entry.2 ?_).1⟩
  exact mem_append_left _ (mem_map_of_mem hentry)

end Runs

end StandardIndexedTree

namespace FullSnapshots

/-- **The snapshots of sparse and indexed trees are faithful.**  In a run of updates or batches,
commits, rollbacks and snapshots at increasing blocks, every snapshot taken so far answers as the
committed tree did when it was taken, as long as the nodes of the trees taken are apart and, in an
indexed tree, batches fit and no key zero other than the first is committed. -/
theorem faithful_of_apart {Buffer Leaf Bytes : Type} [DecidableEq Buffer] [IndexedTreeLeaf Leaf]
    {depth : ℕ} (hdepth : 1 ≤ depth) : (∀ (hash : Buffer → Buffer → Buffer) (initialLeaf : Buffer)
      (actions : List (Action (LeafArray.Action (Buffer × ℕ)))), Function.Injective2 hash →
        (blocks actions).Pairwise (· < ·) → SparseTree.Apart hash initialLeaf depth actions →
          ∀ entry ∈ (SparseTree.run hash initialLeaf depth actions).taken,
            SparseTree.Faithful hash initialLeaf
              (SparseTree.run hash initialLeaf depth actions).builder entry.1 entry.2) ∧
    ∀ (H : Hasher Buffer Leaf) (toBuffer : Preimage Leaf → Bytes) (prefilledSize : ℕ)
      (t : StandardIndexedTree Buffer Leaf depth)
      (actions : List (Action (StandardIndexedTree.Action Leaf))), Function.Injective2 H.hash →
        Function.Injective H.hashInputs → (∀ p, H.hashInputs p ≠ H.zero) →
          (StandardIndexedTree.new H depth).init H prefilledSize = .ok t →
            (blocks actions).Pairwise (· < ·) → StandardIndexedTree.Apart H t actions →
              ∀ entry ∈ (StandardIndexedTree.runWithSnapshots H t actions).taken,
                StandardIndexedTree.Faithful H toBuffer
                  (StandardIndexedTree.runWithSnapshots H t actions).builder entry.1 entry.2 := by
  constructor
  · intro hash initialLeaf actions hH hblocks hapart entry hentry
    have hsound := SparseTree.run_sound hH depth actions hblocks hapart
    obtain ⟨snapshot, hget, hanswers, -⟩ := hsound.answers hH hdepth hentry
    exact ⟨snapshot, hget, hanswers⟩
  · intro H toBuffer prefilledSize t actions hH hinj hzero hinit hblocks hapart entry hentry
    obtain ⟨hsound, hrecorded⟩ := StandardIndexedTree.runWithSnapshots_sound hH hinj hzero
      (StandardIndexedTree.recorded_init hinit) actions hblocks hapart
    obtain ⟨snapshot, hget, hanswers, hleaves⟩ := hsound.answers hH hdepth hentry
    have hcopy : ∀ index < 2 ^ depth,
        IndexedTreeSnapshotImpl.getLatestLeafPreimageCopy H snapshot index =
          entry.2.leaves index := by
      intro index hindex
      rw [IndexedTreeSnapshotImpl.getLatestLeafPreimageCopy, hanswers.leafValue index hindex]
      exact hleaves index hindex
    refine ⟨snapshot, hget, hanswers.root, hanswers.siblingPath, ?_, hcopy, ?_⟩
    · intro index hindex
      rw [IndexedTreeSnapshotImpl.getLeafValue, hcopy index hindex]
      rfl
    · intro key
      exact (IndexedTreeSnapshotImpl.findIndexOfPreviousKey_eq (hrecorded entry hentry) hcopy
        hanswers.numLeaves key).symm

def listHasher : Hasher ℕ NullifierLeaf :=
  ⟨pairHash, fun p => listHash [p.leaf.nullifier, p.nextKey, p.nextIndex], 0⟩

theorem listHasher_injective : Function.Injective listHasher.hashInputs ∧
    ∀ p, listHasher.hashInputs p ≠ listHasher.zero := by
  constructor
  · rintro ⟨⟨key⟩, nextKey, nextIndex⟩ ⟨⟨key'⟩, nextKey', nextIndex'⟩ heq
    have := listHash_injective heq
    simp_all
  · intro p
    exact Nat.succ_ne_zero _

/-- A leaf of a sparse tree is updated twice, with a snapshot after each commit. -/
def updatedTwice : List (Action (LeafArray.Action (ℕ × ℕ))) :=
  [.change (.write (5, 1)), .change .commit, .snapshot 1, .change (.write (7, 1)), .change .commit,
    .snapshot 2]

/-- Leaves are inserted into an indexed tree, before a snapshot. -/
def inserted (leaves : List NullifierLeaf) :
    List (Action (StandardIndexedTree.Action NullifierLeaf)) :=
  [.change (.batchInsert leaves 0), .change .commit, .snapshot 1]

/-- The snapshots of a sparse and of an indexed tree. -/
theorem faithful_of_apart_two :
    (∀ entry ∈ (SparseTree.run pairHash 0 2 updatedTwice).taken, SparseTree.Faithful pairHash 0
      (SparseTree.run pairHash 0 2 updatedTwice).builder entry.1 entry.2) ∧
    ∃ t : StandardIndexedTree ℕ NullifierLeaf 2,
      (StandardIndexedTree.new listHasher 2).init listHasher 2 = .ok t ∧
        ∀ entry ∈ (StandardIndexedTree.runWithSnapshots listHasher t (inserted [⟨5⟩])).taken,
          StandardIndexedTree.Faithful listHasher Preimage.getKey
            (StandardIndexedTree.runWithSnapshots listHasher t (inserted [⟨5⟩])).builder
            entry.1 entry.2 := by
  obtain ⟨t, hinit, -⟩ : ∃ t : StandardIndexedTree ℕ NullifierLeaf 2,
      (StandardIndexedTree.new listHasher 2).init listHasher 2 = .ok t ∧ _ :=
    StandardIndexedTree.init_eq listHasher (by decide) (by decide)
  have hrun : ∀ t ∈ ((StandardIndexedTree.new listHasher 2).init listHasher 2).toOption,
      (t.getNumLeaves true = 2 ∧
        ∀ e ∈ (StandardIndexedTree.act listHasher t
          (.batchInsert [⟨5⟩] 0)).cachedLeafPreimages.entries, e.2.getKey = 0 → e.1 = 0) ∧
        StandardIndexedTree.NodesApart listHasher [StandardIndexedTree.act listHasher
          (StandardIndexedTree.act listHasher t (.batchInsert [⟨5⟩] 0)) .commit] := by
    decide
  obtain ⟨⟨hnum, hcached⟩, hapart⟩ := hrun t (by rw [hinit]; rfl)
  obtain ⟨hsparse, hindexed⟩ := @faithful_of_apart ℕ NullifierLeaf ℕ _ _ 2 (by decide)
  refine ⟨hsparse _ _ _ pairHash_injective (by decide) ?_, t, hinit,
    hindexed _ _ 2 _ _ pairHash_injective listHasher_injective.1 listHasher_injective.2 hinit
      (by decide) ?_⟩
  · refine ⟨trivial, trivial, ?_, trivial, trivial, ?_, trivial⟩
    · change HeightsApart pairHash 0 _
      decide
    · change HeightsApart pairHash 0 _
      decide +kernel
  · refine ⟨?_, fun i p hp => ?_, hapart, trivial⟩
    · change t.getNumLeaves true + 1 ≤ 4
      omega
    · exact hcached (i, p) (PropertyMap.mem_entries_iff.2 hp)

/-- The leaves of a sparse tree are two nodes; then the leaves are the children of these. -/
def replacedByChildren : List (Action (LeafArray.Action (ℕ × ℕ))) :=
  [.change (.write (pairHash 1 2, 0)), .change (.write (pairHash 3 4, 1)), .change .commit,
    .snapshot 1, .change (.write (1, 0)), .change (.write (2, 1)), .change (.write (3, 2)),
    .change (.write (4, 3)), .change .commit, .snapshot 2]

def sameFirstLeaf (builder : BaseFullTreeSnapshotBuilder ℕ Empty)
    (entry : ℕ × TreeBase ℕ 2) : Bool :=
  match builder.getSnapshot 2 entry.1 with
  | .ok snapshot =>
    snapshot.getLeafValue pairHash 0 0 = some (entry.2.getLeafValue pairHash 0 0 false)
  | .error _ => false

/-- The snapshot of a block of an indexed tree finds key zero where the tree finds it. -/
def sameZeroKey (builder : BaseFullTreeSnapshotBuilder ℕ (Preimage NullifierLeaf))
    (entry : ℕ × StandardIndexedTree ℕ NullifierLeaf 2) : Bool :=
  match builder.getSnapshot 2 entry.1 with
  | .ok snapshot => some (IndexedTreeSnapshotImpl.findIndexOfPreviousKey listHasher snapshot 0) =
      entry.2.findIndexOfPreviousKey 0 false
  | .error _ => false

/-- **Snapshots are not faithful in general.**  In a sparse tree whose leaves are the nodes above
the leaves of a later version, the walk over that version stops at its root.  In an indexed tree to
which a batch with an empty leaf has been committed, the tree finds key zero at the empty leaf, and
the snapshot at the first one. -/
theorem not_faithful_in_general : (¬∀ (depth : ℕ) (hash : ℕ → ℕ → ℕ) (initialLeaf : ℕ)
      (actions : List (Action (LeafArray.Action (ℕ × ℕ)))), 1 ≤ depth →
        Function.Injective2 hash → (blocks actions).Pairwise (· < ·) →
          ∀ entry ∈ (SparseTree.run hash initialLeaf depth actions).taken,
            SparseTree.Faithful hash initialLeaf
              (SparseTree.run hash initialLeaf depth actions).builder entry.1 entry.2) ∧
    ¬∀ (depth : ℕ) (H : Hasher ℕ NullifierLeaf) (toBuffer : Preimage NullifierLeaf → ℕ)
      (prefilledSize : ℕ) (t : StandardIndexedTree ℕ NullifierLeaf depth)
      (actions : List (Action (StandardIndexedTree.Action NullifierLeaf))), 1 ≤ depth →
        Function.Injective2 H.hash → Function.Injective H.hashInputs →
          (∀ p, H.hashInputs p ≠ H.zero) →
            (StandardIndexedTree.new H depth).init H prefilledSize = .ok t →
              (blocks actions).Pairwise (· < ·) →
                ∀ entry ∈ (StandardIndexedTree.runWithSnapshots H t actions).taken,
                  StandardIndexedTree.Faithful H toBuffer
                    (StandardIndexedTree.runWithSnapshots H t actions).builder entry.1 entry.2 := by
  constructor
  · intro h
    have hall := h 2 pairHash 0 replacedByChildren (by decide) pairHash_injective (by decide)
    have hrun : ¬((SparseTree.run pairHash 0 2 replacedByChildren).taken.all
        (sameFirstLeaf (SparseTree.run pairHash 0 2 replacedByChildren).builder) = true) := by
      decide +kernel
    refine absurd ?_ hrun
    refine List.all_eq_true.2 fun entry hentry => ?_
    obtain ⟨snapshot, hget, hanswers⟩ := hall entry hentry
    simp only [sameFirstLeaf, hget, hanswers.leafValue 0 (by decide), decide_true]
  · intro h
    obtain ⟨t, hinit, -⟩ : ∃ t : StandardIndexedTree ℕ NullifierLeaf 2,
        (StandardIndexedTree.new listHasher 2).init listHasher 2 = .ok t ∧ _ :=
      StandardIndexedTree.init_eq listHasher (by decide) (by decide)
    have hall := h 2 listHasher Preimage.getKey 2 t (inserted [⟨5⟩, ⟨0⟩]) (by decide)
      pairHash_injective listHasher_injective.1 listHasher_injective.2 hinit (by decide)
    have hrun : ∀ t ∈ ((StandardIndexedTree.new listHasher 2).init listHasher 2).toOption,
        ¬((StandardIndexedTree.runWithSnapshots listHasher t (inserted [⟨5⟩, ⟨0⟩])).taken.all
          (sameZeroKey (StandardIndexedTree.runWithSnapshots listHasher t
            (inserted [⟨5⟩, ⟨0⟩])).builder) = true) := by
      decide +kernel
    refine absurd (List.all_eq_true.2 fun entry hentry => ?_) (hrun t (by rw [hinit]; rfl))
    obtain ⟨snapshot, hget, hreads⟩ := hall entry hentry
    simp only [sameZeroKey, hget, hreads.previousKey 0, decide_true]

end FullSnapshots
