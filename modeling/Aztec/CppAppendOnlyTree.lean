/-
**The append-only tree of the C++ world state.**

`AppendOnlyTree` keeps the nodes of a tree of fixed depth in a store, under their level and index.
A batch of values is hashed as a subtree of its own, whose length and start index are halved level
by level, and the root of that subtree is then hashed up to the root of the tree.  This is the tree
of the values when the batch is a subtree of it: when its length is a power of two and its start a
multiple of the length.
-/

import Aztec.Merkle
import Aztec.LeafArrays

open Merkle TreeBase List

/-- The state of `AppendOnlyTree`; the store takes the level and the index of a node. -/
structure AppendOnlyTree (Fr : Type) (depth : ℕ) where
  store : ℕ × ℕ → Option Fr
  root : Fr
  size : ℕ

namespace AppendOnlyTree

/-! ### The tree -/

section Model

variable {Fr : Type} {depth : ℕ} (hashPair : Fr → Fr → Fr) (zeroHash : Fr)

def zeroHashes (depth level : ℕ) : Fr := zeroNode hashPair zeroHash (depth - level)

def new (depth : ℕ) : AppendOnlyTree Fr depth :=
  { store := fun _ => none, root := zeroHashes hashPair zeroHash depth 0, size := 0 }

def writeNode (t : AppendOnlyTree Fr depth) (level index : ℕ) (value : Fr) :
    AppendOnlyTree Fr depth :=
  { t with store := Function.update t.store (level, index) (some value) }

def getElementOrZero (t : AppendOnlyTree Fr depth) (level index : ℕ) : Fr :=
  (t.store (level, index)).getD (zeroHashes hashPair zeroHash depth level)

/-- The loop of `get_hash_path`, from a level down to the root. -/
def hashPathFrom (t : AppendOnlyTree Fr depth) : ℕ → ℕ → List (Fr × Fr)
  | 0, _ => []
  | level + 1, index =>
    let rightValue :=
      if index % 2 = 1 then getElementOrZero hashPair zeroHash t (level + 1) index
      else getElementOrZero hashPair zeroHash t (level + 1) (index + 1)
    let leftValue :=
      if index % 2 = 1 then getElementOrZero hashPair zeroHash t (level + 1) (index - 1)
      else getElementOrZero hashPair zeroHash t (level + 1) index
    (leftValue, rightValue) :: hashPathFrom t level (index / 2)

def getHashPath (t : AppendOnlyTree Fr depth) (index : ℕ) : List (Fr × Fr) :=
  hashPathFrom hashPair zeroHash t depth index

/-- The body of the inner loop of the subtree: two hashes are replaced by that of their parent, in
place.  All indices are below the length of the vector. -/
def hashTwo (level index : ℕ) (state : List Fr × AppendOnlyTree Fr depth) (i : ℕ) :
    List Fr × AppendOnlyTree Fr depth :=
  let hash := hashPair (state.1.getD (i * 2) zeroHash) (state.1.getD (i * 2 + 1) zeroHash)
  (state.1.set i hash, writeNode state.2 level (index + i) hash)

/-- The loop that hashes the values as a subtree; it returns the level and the index it ends at.
On level zero there is nothing to halve. -/
def hashSubtree : ℕ → ℕ → ℕ → List Fr × AppendOnlyTree Fr depth →
    ℕ × ℕ × List Fr × AppendOnlyTree Fr depth
  | 0, index, _, state => (0, index, state)
  | level + 1, index, numberToInsert, state =>
    if numberToInsert > 1 then
      let numberToInsert := numberToInsert / 2
      let index := index / 2
      hashSubtree level index numberToInsert
        ((List.range numberToInsert).foldl (hashTwo hashPair zeroHash level index) state)
    else (level + 1, index, state)

def hashToRoot : ℕ → ℕ → Fr → AppendOnlyTree Fr depth → Fr × AppendOnlyTree Fr depth
  | 0, _, newHash, t => (newHash, t)
  | level + 1, index, newHash, t =>
    let leftHash :=
      if index % 2 = 1 then getElementOrZero hashPair zeroHash t (level + 1) (index - 1)
      else newHash
    let rightHash :=
      if index % 2 = 1 then newHash
      else getElementOrZero hashPair zeroHash t (level + 1) (index + 1)
    let newHash := hashPair leftHash rightHash
    hashToRoot level (index / 2) newHash (writeNode t level (index / 2) newHash)

/-- `add_values`.  The source reads the first hash of an empty batch, which is not there. -/
def addValues (t : AppendOnlyTree Fr depth) (values : List Fr) :
    Option (AppendOnlyTree Fr depth) := do
  let index := t.size
  let t' := values.zipIdx.foldl (fun t value => writeNode t depth (index + value.2) value.1) t
  let (level, index, hashes, t') :=
    hashSubtree hashPair zeroHash depth index values.length (values, t')
  let newHash ← hashes.head?
  let (newHash, t') := hashToRoot hashPair zeroHash level index newHash t'
  return { t' with size := t.size + values.length, root := newHash }

def addValue (t : AppendOnlyTree Fr depth) (value : Fr) : Option (AppendOnlyTree Fr depth) :=
  addValues hashPair zeroHash t [value]

def run (depth : ℕ) (batches : List (List Fr)) : Option (AppendOnlyTree Fr depth) :=
  batches.foldlM (addValues hashPair zeroHash) (new hashPair zeroHash depth)

def hashUp : ℕ → Fr → List (Fr × Fr) → Fr
  | _, current, [] => current
  | index, current, (left, right) :: path =>
    hashUp (index / 2) (if index % 2 = 1 then hashPair left current else hashPair current right)
      path

/-- **What a tree of values is to answer**: its root is the Merkle root of the values padded with
the zero leaf, its size their number, and every entry hashes up to the root along its path.  An
index is a machine word. -/
structure Correct (t : AppendOnlyTree Fr depth) (values : List Fr) : Prop where
  root_eq : t.root = node hashPair (LeafArray.padded zeroHash values) depth 0
  size_eq : t.size = values.length
  path_eq : ∀ i < 2 ^ min depth 64, hashUp hashPair i (LeafArray.padded zeroHash values i)
    (getHashPath hashPair zeroHash t i) = t.root

/-- The batch is a subtree of the tree when it is added after `size` values. -/
def IsSubtree (size : ℕ) (values : List Fr) : Prop :=
  ∃ k, values.length = 2 ^ k ∧ 2 ^ k ∣ size

end Model

/-! ### Nodes -/

section Nodes

variable {Fr : Type} {depth : ℕ} (hashPair : Fr → Fr → Fr) (zeroHash : Fr)

def NodesUpTo (t : AppendOnlyTree Fr depth) (height : ℕ) (g f : ℕ → Fr) : Prop :=
  ∀ level ≤ depth, ∀ index, getElementOrZero hashPair zeroHash t level index =
    node hashPair (if depth - level ≤ height then g else f) (depth - level) index

/-- **The invariant**: the tree holds the values. -/
structure Holds (t : AppendOnlyTree Fr depth) (values : List Fr) : Prop where
  nodes : NodesUpTo hashPair zeroHash t depth (LeafArray.padded zeroHash values)
    (LeafArray.padded zeroHash values)
  root_eq : t.root = node hashPair (LeafArray.padded zeroHash values) depth 0
  size_eq : t.size = values.length

variable {hashPair zeroHash} {t : AppendOnlyTree Fr depth} {f g : ℕ → Fr}

@[simp] theorem getElementOrZero_writeNode (level index level' index' : ℕ) (value : Fr) :
    getElementOrZero hashPair zeroHash (t.writeNode level index value) level' index' =
      if level' = level ∧ index' = index then value
      else getElementOrZero hashPair zeroHash t level' index' := by
  unfold getElementOrZero writeNode
  split
  · next h => simp [h.1, h.2]
  · next h =>
      have hne : (level', index') ≠ (level, index) := by simpa using h
      simp only [Function.update_of_ne hne]

theorem hashUp_hashPathFrom (h : NodesUpTo hashPair zeroHash t depth f f) :
    ∀ level ≤ depth, ∀ index, hashUp hashPair index (node hashPair f (depth - level) index)
        (hashPathFrom hashPair zeroHash t level index) =
      node hashPair f depth (index / 2 ^ level) := by
  intro level
  induction level with
  | zero =>
    intro _ index
    rw [hashPathFrom, hashUp, Nat.sub_zero, pow_zero, Nat.div_one]
  | succ level ih =>
    intro hlevel index
    have hheight : depth - (level + 1) + 1 = depth - level := by omega
    have hnode : ∀ index, getElementOrZero hashPair zeroHash t (level + 1) index =
        node hashPair f (depth - (level + 1)) index := by
      intro index
      have := h (level + 1) hlevel index
      rwa [ite_self] at this
    have hparent := node_parent hashPair f (depth - (level + 1)) index
    rw [hheight] at hparent
    rw [hashPathFrom, hashUp, ← div_two_div_pow, ← ih (by omega), hparent]
    congr 1
    split
    · next hodd => simp only [hodd, if_true, hnode, siblingIndex]
    · next heven => simp only [heven, if_false, hnode, siblingIndex]

variable {values : List Fr} {height index : ℕ}

theorem Holds.correct (h : Holds hashPair zeroHash t values) :
    Correct hashPair zeroHash t values := by
  refine ⟨h.root_eq, h.size_eq, fun i hi => ?_⟩
  have hup := hashUp_hashPathFrom h.nodes depth le_rfl i
  have hi : i < 2 ^ depth := hi.trans_le (Nat.pow_le_pow_right two_pos (min_le_left _ _))
  rw [Nat.sub_self, node_zero, Nat.div_eq_of_lt hi, ← h.root_eq] at hup
  exact hup

theorem holds_new : Holds hashPair zeroHash (new hashPair zeroHash depth) [] := by
  have hzero : ∀ height index, zeroNode hashPair zeroHash height =
      node hashPair (LeafArray.padded zeroHash []) height index :=
    fun _ _ => (node_const fun _ _ _ => rfl).symm
  refine ⟨fun level _ index => ?_, hzero _ _, rfl⟩
  rw [ite_self, ← hzero]
  rfl

/-! ### Batches -/

theorem NodesUpTo.raise {t' : AppendOnlyTree Fr depth} {height : ℕ}
    (h : NodesUpTo hashPair zeroHash t height g f) (changed : ℕ → Prop) [DecidablePred changed]
    (hheight : height + 1 ≤ depth) (hsame : ∀ index, ¬changed index →
      node hashPair f (height + 1) index = node hashPair g (height + 1) index)
    (ht' : ∀ level index, getElementOrZero hashPair zeroHash t' level index =
      if level = depth - (height + 1) ∧ changed index then node hashPair g (height + 1) index
      else getElementOrZero hashPair zeroHash t level index) :
    NodesUpTo hashPair zeroHash t' (height + 1) g f := by
  intro level hlevel index
  rw [ht', h level hlevel]
  by_cases hl : level = depth - (height + 1)
  · have hdepth : depth - level = height + 1 := by omega
    rw [hdepth, if_pos le_rfl, if_neg (by omega : ¬height + 1 ≤ height)]
    by_cases hc : changed index
    · rw [if_pos ⟨hl, hc⟩]
    · rw [if_neg fun hboth => hc hboth.2, hsame index hc]
  · rw [if_neg fun hboth => hl hboth.1]
    congr 1
    by_cases hle : depth - level ≤ height
    · rw [if_pos hle, if_pos (by omega)]
    · rw [if_neg hle, if_neg (by omega)]

theorem node_eq_of_agree (hfg : ∀ j, j / 2 ^ height ≠ index → f j = g j) {index' : ℕ}
    (hne : index' ≠ index) : node hashPair f height index' = node hashPair g height index' := by
  refine node_congr fun j h₁ h₂ => hfg j ?_
  rwa [div_of_block h₁ h₂]

theorem agree_parent (hfg : ∀ j, j / 2 ^ height ≠ index → f j = g j) :
    ∀ j, j / 2 ^ (height + 1) ≠ index / 2 → f j = g j := by
  intro j hj
  refine hfg j fun heq => hj ?_
  rw [← div_pow_div_two, heq]

theorem hashToRoot_eq (level : ℕ) : ∀ (t : AppendOnlyTree Fr depth) (index : ℕ), level ≤ depth →
      NodesUpTo hashPair zeroHash t (depth - level) g f →
      (∀ j, j / 2 ^ (depth - level) ≠ index → f j = g j) →
      ∃ t', hashToRoot hashPair zeroHash level index (node hashPair g (depth - level) index) t =
          (node hashPair g depth (index / 2 ^ level), t') ∧
        NodesUpTo hashPair zeroHash t' depth g f ∧ t'.size = t.size := by
  induction level with
  | zero =>
    intro t index _ ht _
    refine ⟨t, ?_, ht, rfl⟩
    rw [hashToRoot, Nat.sub_zero, pow_zero, Nat.div_one]
  | succ level ih =>
    intro t index hlevel ht hfg
    have hheight : depth - (level + 1) + 1 = depth - level := by omega
    have hsibling : ∀ index, getElementOrZero hashPair zeroHash t (level + 1) index =
        node hashPair g (depth - (level + 1)) index := by
      intro index
      rw [ht (level + 1) hlevel, if_pos le_rfl]
    -- the hash of the pair is the parent in the tree of the new leaves
    have hparent := node_parent hashPair g (depth - (level + 1)) index
    rw [hheight] at hparent
    have hnew : hashPair (if index % 2 = 1 then node hashPair g (depth - (level + 1)) (index - 1)
          else node hashPair g (depth - (level + 1)) index)
        (if index % 2 = 1 then node hashPair g (depth - (level + 1)) index
          else node hashPair g (depth - (level + 1)) (index + 1)) =
        node hashPair g (depth - level) (index / 2) := by
      rw [hparent, siblingIndex]
      split <;> rfl
    have hraise : NodesUpTo hashPair zeroHash
        (t.writeNode level (index / 2) (node hashPair g (depth - level) (index / 2)))
        (depth - level) g f := by
      rw [← hheight]
      refine ht.raise (fun index' => index' = index / 2) (by omega)
        (fun index' hne => node_eq_of_agree (agree_parent hfg) hne) fun level' index' => ?_
      rw [getElementOrZero_writeNode, show depth - (depth - (level + 1) + 1) = level by omega]
      split
      · next hboth => rw [hboth.2]
      · rfl
    have hagree := agree_parent hfg
    rw [hheight] at hagree
    obtain ⟨t', hrun, hnodes, hsize⟩ := ih _ (index / 2) (by omega) hraise hagree
    refine ⟨t', ?_, hnodes, hsize⟩
    rw [hashToRoot]
    simp only [hsibling, hnew, hrun, div_two_div_pow]

theorem foldl_hashTwo {height level index : ℕ} (n : ℕ) (state : List Fr × AppendOnlyTree Fr depth)
    (hlen : 2 * n ≤ state.1.length)
    (hhashes : ∀ i < 2 * n, state.1.getD i zeroHash = node hashPair g height (2 * index + i)) :
    let state' := (range n).foldl (hashTwo hashPair zeroHash level index) state
    state'.1.length = state.1.length ∧ (∀ i, state'.1.getD i zeroHash =
        if i < n then node hashPair g (height + 1) (index + i) else state.1.getD i zeroHash) ∧
      (∀ level' index', getElementOrZero hashPair zeroHash state'.2 level' index' =
        if level' = level ∧ index ≤ index' ∧ index' < index + n
        then node hashPair g (height + 1) index'
        else getElementOrZero hashPair zeroHash state.2 level' index') ∧
      state'.2.size = state.2.size := by
  induction n with
  | zero => simp
  | succ n ih =>
    obtain ⟨ihlen, ihhashes, ihnodes, ihsize⟩ :=
      ih (by omega) fun i hi => hhashes i (by omega)
    -- the two hashes that are read have not been replaced yet
    have hleft := ihhashes (n * 2)
    have hright := ihhashes (n * 2 + 1)
    rw [if_neg (by omega), hhashes _ (by omega)] at hleft hright
    have hhash : hashPair (node hashPair g height (2 * index + n * 2))
        (node hashPair g height (2 * index + (n * 2 + 1))) =
        node hashPair g (height + 1) (index + n) := by
      rw [node_succ]
      congr 2 <;> ring
    rw [range_succ, foldl_append]
    simp only [foldl_cons, foldl_nil, hashTwo, hleft, hright, hhash]
    refine ⟨by rw [length_set, ihlen], fun i => ?_, fun level' index' => ?_, ihsize⟩
    · rw [getD_eq_getElem?_getD, getElem?_set, ihlen]
      by_cases hi : n = i
      · subst hi
        rw [if_pos rfl, if_pos (by omega), if_pos (by omega), Option.getD_some]
      · rw [if_neg hi, ← getD_eq_getElem?_getD, ihhashes]
        by_cases hlt : i < n
        · rw [if_pos hlt, if_pos (by omega)]
        · rw [if_neg hlt, if_neg (by omega)]
    · rw [getElementOrZero_writeNode, ihnodes]
      by_cases hi : level' = level ∧ index' = index + n
      · rw [if_pos hi, if_pos ⟨hi.1, by omega, by omega⟩, hi.2]
      · rw [if_neg hi]
        congr 1
        exact propext ⟨fun h => ⟨h.1, h.2.1, by omega⟩, fun h => ⟨h.1, h.2.1, by omega⟩⟩

theorem hashSubtree_eq (m : ℕ) :
    ∀ (height index : ℕ) (state : List Fr × AppendOnlyTree Fr depth), height + m ≤ depth →
      NodesUpTo hashPair zeroHash state.2 height g f → 2 ^ m ≤ state.1.length →
      (∀ i < 2 ^ m, state.1.getD i zeroHash = node hashPair g height (index * 2 ^ m + i)) →
      (∀ j, j / 2 ^ (height + m) ≠ index → f j = g j) →
      ∃ hashes t', hashSubtree hashPair zeroHash (depth - height) (index * 2 ^ m) (2 ^ m) state =
          (depth - (height + m), index, hashes, t') ∧
        hashes.head? = some (node hashPair g (height + m) index) ∧
        NodesUpTo hashPair zeroHash t' (height + m) g f ∧ t'.size = state.2.size := by
  induction m with
  | zero =>
    intro height index ⟨hashes, t⟩ hheight hnodes hlen hhashes hfg
    have hhead := hhashes 0 Nat.one_pos
    cases hashes with
    | nil => simp at hlen
    | cons hash hashes =>
      refine ⟨hash :: hashes, t, ?_, by simpa using hhead, hnodes, rfl⟩
      cases hlevel : depth - height with
      | zero => simp [hashSubtree]
      | succ level => simp [hashSubtree]
  | succ m ih =>
    intro height index state hheight hnodes hlen hhashes hfg
    obtain ⟨level, hlevel⟩ : ∃ level, depth - height = level + 1 :=
      ⟨depth - height - 1, by omega⟩
    have hlevel' : level = depth - (height + 1) := by omega
    have hmore : 2 ^ (m + 1) > 1 := Nat.one_lt_two_pow (by omega)
    have hhalf : 2 ^ (m + 1) / 2 = 2 ^ m := by omega
    have hstart : index * 2 ^ (m + 1) / 2 = index * 2 ^ m := by
      rw [pow_succ, ← Nat.mul_assoc, Nat.mul_div_cancel _ two_pos]
    obtain ⟨hlen', hhashes', hnodes', hsize'⟩ :=
      @foldl_hashTwo _ _ hashPair zeroHash g height level (index * 2 ^ m) (2 ^ m) state (by omega)
        fun i hi => by
          rw [hhashes i (by omega)]
          congr 1
          ring
    -- the pass raises the height by one: it writes the nodes below the root of the subtree
    have hraise := hnodes.raise
      (fun index' => index * 2 ^ m ≤ index' ∧ index' < index * 2 ^ m + 2 ^ m) (by omega)
      (fun index' hout => node_congr fun j h₁ h₂ => hfg j fun heq => hout ?_)
      (by rw [← hlevel']; exact hnodes')
    · obtain ⟨hashes, t', hrun, hhead, hup, hsize⟩ := ih (height + 1) index _ (by omega) hraise
        (by omega) (fun i hi => by rw [hhashes' i, if_pos hi])
        (by rwa [show height + 1 + m = height + (m + 1) by omega])
      rw [show height + 1 + m = height + (m + 1) by omega] at hrun hhead hup
      refine ⟨hashes, t', ?_, hhead, hup, hsize.trans hsize'⟩
      rw [hlevel, hashSubtree, if_pos hmore]
      simp only [hhalf, hstart]
      rw [hlevel', ← hrun, hlevel']
    · have hdiv : index' / 2 ^ m = index := by
        rw [← div_of_block h₁ h₂, Nat.div_div_eq_div_mul, ← pow_add,
          show height + 1 + m = height + (m + 1) by omega, heq]
      have hblock := div_eq_iff_block.1 hdiv
      rw [Nat.add_mul, Nat.one_mul] at hblock
      exact hblock

theorem getElementOrZero_writeLeaves (values : List Fr) :
    ∀ (n : ℕ) (t : AppendOnlyTree Fr depth) (start level index : ℕ),
      getElementOrZero hashPair zeroHash ((values.zipIdx n).foldl
          (fun t value => writeNode t depth (start + value.2) value.1) t) level index =
        if level = depth ∧ start + n ≤ index ∧ index < start + n + values.length
        then values.getD (index - (start + n)) zeroHash
        else getElementOrZero hashPair zeroHash t level index := by
  induction values with
  | nil =>
    intro n t start level index
    rw [zipIdx_nil, foldl_nil, if_neg]
    rintro ⟨-, h₁, h₂⟩
    simp at h₂
    omega
  | cons value values ih =>
    intro n t start level index
    rw [zipIdx_cons, foldl_cons, ih, getElementOrZero_writeNode, length_cons]
    by_cases hlevel : level = depth
    · rcases lt_trichotomy index (start + n) with hlt | rfl | hgt
      · rw [if_neg (by omega), if_neg (by omega), if_neg (by omega)]
      · rw [if_neg (by omega), if_pos ⟨hlevel, rfl⟩, if_pos (by omega), Nat.sub_self,
          getD_cons_zero]
      · by_cases hin : index < start + (n + 1) + values.length
        · rw [if_pos (by omega), if_pos (by omega),
            show index - (start + n) = index - (start + (n + 1)) + 1 by omega, getD_cons_succ]
        · rw [if_neg (by omega), if_neg (by omega), if_neg (by omega)]
    · simp only [hlevel, false_and, if_false]

theorem Holds.addValues {batch : List Fr} (h : Holds hashPair zeroHash t values)
    (hsub : IsSubtree t.size batch) (hfits : t.size + batch.length ≤ 2 ^ depth) :
    ∃ t', addValues hashPair zeroHash t batch = some t' ∧
      Holds hashPair zeroHash t' (values ++ batch) := by
  obtain ⟨k, hlen, b, hb⟩ := hsub
  have hstart : t.size = b * 2 ^ k := by rw [hb, Nat.mul_comm]
  have hsize := h.size_eq
  have hk : k ≤ depth := (Nat.pow_le_pow_iff_right one_lt_two).1 (by omega)
  set f := LeafArray.padded zeroHash values
  set g := LeafArray.padded zeroHash (values ++ batch)
  have hold : ∀ j, ¬(t.size ≤ j ∧ j < t.size + batch.length) → f j = g j := by
    intro j hj
    simp only [f, g, LeafArray.padded, getElem?_append]
    split
    · rfl
    · next hge =>
        rw [getElem?_eq_none (by omega), getElem?_eq_none (by omega)]
  have hnew : ∀ i < batch.length, batch.getD i zeroHash = g (t.size + i) := by
    intro i hi
    simp only [g, LeafArray.padded, getElem?_append, getD_eq_getElem?_getD]
    rw [if_neg (by omega), hsize, Nat.add_sub_cancel_left]
  have hfg : ∀ j, j / 2 ^ (0 + k) ≠ b → f j = g j := by
    intro j hj
    refine hold j fun hin => hj ?_
    rw [Nat.zero_add]
    refine div_of_block (by omega) ?_
    rw [Nat.add_mul, Nat.one_mul]
    omega
  -- the leaves are those of the new values, the nodes above them still those of the old ones
  set leaves := batch.zipIdx.foldl
    (fun t' value => writeNode t' depth (t.size + value.2) value.1) t with hleaves
  have hnodes : NodesUpTo hashPair zeroHash leaves 0 g f := by
    intro level hlevel index
    rw [hleaves, getElementOrZero_writeLeaves, h.nodes level hlevel, ite_self, Nat.add_zero]
    by_cases hl : level = depth
    · rw [hl, Nat.sub_self, if_pos le_rfl, node_zero, node_zero]
      by_cases hin : t.size ≤ index ∧ index < t.size + batch.length
      · rw [if_pos ⟨rfl, hin⟩, hnew _ (by omega), Nat.add_sub_cancel' hin.1]
      · rw [if_neg fun hboth => hin hboth.2, ← hold index hin]
    · rw [if_neg fun hboth => hl hboth.1, if_neg (by omega)]
  obtain ⟨hashes, t₁, hsubtree, hhead, hup, hsize₁⟩ :=
    hashSubtree_eq k 0 b (batch, leaves) (by omega) hnodes hlen.ge
      (fun i hi => by rw [node_zero, ← hstart, ← hnew i (by omega)]) hfg
  rw [Nat.zero_add] at hsubtree hhead hup hfg
  have hheight : depth - (depth - k) = k := by omega
  obtain ⟨t₂, hroot, hall, hsize₂⟩ := hashToRoot_eq (depth - k) t₁ b (by omega)
    (by rwa [hheight]) (by rwa [hheight])
  have hb : b / 2 ^ (depth - k) = 0 := by
    refine Nat.div_eq_of_lt ?_
    have : b * 2 ^ k < 2 ^ (depth - k) * 2 ^ k := by
      rw [← pow_add, Nat.sub_add_cancel hk]
      have : 0 < 2 ^ k := by positivity
      omega
    exact Nat.lt_of_mul_lt_mul_right this
  rw [hheight, hb] at hroot
  rw [Nat.sub_zero, ← hstart, ← hlen] at hsubtree
  let t' : AppendOnlyTree Fr depth :=
    { t₂ with size := t.size + batch.length, root := node hashPair g depth 0 }
  refine ⟨t', ?_, ?_, rfl, ?_⟩
  · simp only [AppendOnlyTree.addValues, ← hleaves, hsubtree, hhead, t',
      Option.bind_eq_bind, Option.bind_some, hroot]
    rfl
  · intro level hlevel index
    have hnode := hall level hlevel index
    rw [if_pos (Nat.sub_le depth level)] at hnode
    rw [ite_self]
    exact hnode
  · change t.size + batch.length = _
    rw [hsize, length_append]

end Nodes

/-! ### Runs -/

section Runs

variable {Fr : Type} {depth : ℕ} {hashPair : Fr → Fr → Fr} {zeroHash : Fr}

/-- Every batch is a subtree of the tree at the place where it is added. -/
def AllSubtrees : ℕ → List (List Fr) → Prop
  | _, [] => True
  | size, values :: batches =>
    IsSubtree size values ∧ AllSubtrees (size + values.length) batches

theorem Holds.foldlM_addValues {t : AppendOnlyTree Fr depth} {values : List Fr}
    (h : Holds hashPair zeroHash t values) (batches : List (List Fr)) :
      AllSubtrees t.size batches → t.size + batches.flatten.length ≤ 2 ^ depth →
      ∃ t', batches.foldlM (AppendOnlyTree.addValues hashPair zeroHash) t = some t' ∧
        Holds hashPair zeroHash t' (values ++ batches.flatten) := by
  induction batches generalizing t values with
  | nil =>
    intro _ _
    exact ⟨t, rfl, by simpa using h⟩
  | cons batch batches ih =>
    intro hsub hfits
    rw [flatten_cons, length_append] at hfits
    obtain ⟨t₁, hrun, h₁⟩ := h.addValues hsub.1 (by omega)
    have hsize : t₁.size = t.size + batch.length := by
      rw [h₁.size_eq, length_append, h.size_eq]
    obtain ⟨t', hruns, h'⟩ := ih h₁ (by rw [hsize]; exact hsub.2) (by omega)
    refine ⟨t', ?_, by rwa [append_assoc] at h'⟩
    rw [foldlM_cons, hrun]
    exact hruns

end Runs

/-- **Every run of batches that are subtrees of the tree is correct.** -/
theorem correct_of_subtrees {Fr : Type} (hashPair : Fr → Fr → Fr) (zeroHash : Fr) (depth : ℕ)
    (batches : List (List Fr)) (hsub : AllSubtrees 0 batches)
    (hfits : batches.flatten.length ≤ 2 ^ depth) :
    ∃ t, run hashPair zeroHash depth batches = some t ∧
      Correct hashPair zeroHash t batches.flatten := by
  have hnew : Holds hashPair zeroHash (new hashPair zeroHash depth) [] := holds_new
  obtain ⟨t, hrun, h⟩ := hnew.foldlM_addValues batches hsub (by rwa [hnew.size_eq, List.length_nil,
    Nat.zero_add])
  exact ⟨t, hrun, h.correct⟩

/-- Batches of one, one and two values. -/
theorem correct_of_subtrees_four : ∃ t, run pairHash 0 3 [[7], [7], [8, 9]] = some t ∧
      Correct pairHash 0 t [7, 7, 8, 9] :=
  correct_of_subtrees pairHash 0 3 [[7], [7], [8, 9]]
    ⟨⟨0, rfl, by decide⟩, ⟨0, rfl, by decide⟩, ⟨1, rfl, by decide⟩, trivial⟩ (by decide)

/-- A batch of three: the third value is not hashed in. -/
theorem not_correct_of_fits :
    ¬∀ (depth : ℕ) (batches : List (List ℕ)), (∀ values ∈ batches, values ≠ []) →
      batches.flatten.length ≤ 2 ^ depth →
        ∃ t, run pairHash 0 depth batches = some t ∧ Correct pairHash 0 t batches.flatten := by
  intro h
  obtain ⟨t, hrun, hcorrect⟩ := h 2 [[1, 2, 3]] (by decide) (by decide)
  have hroot : (run pairHash 0 2 [[1, 2, 3]]).map AppendOnlyTree.root =
      some (pairHash (pairHash 1 2) (pairHash 0 0)) := by decide
  rw [hrun] at hroot
  have hneq : pairHash (pairHash 1 2) (pairHash 0 0) ≠
      node pairHash (LeafArray.padded 0 [1, 2, 3]) 2 0 := by decide
  exact hneq ((Option.some.inj hroot).symm.trans hcorrect.root_eq)

end AppendOnlyTree
