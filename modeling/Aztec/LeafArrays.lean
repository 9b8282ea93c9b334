/-
**The trees of the node as arrays of leaves.**

`StandardTree` appends leaves and `SparseTree` overwrites them at any index; both are `TreeBase`s
with a committed part and a cache.  What they are for is easier said: each holds an array of leaves
in two versions, the committed one and the one with the pending changes; `commit` makes the second
the first, and `rollback` the first the second.
-/

import Aztec.TreeBase

open Merkle TreeBase Function List

/-! ### The sparse tree -/

namespace SparseTree

variable {Buffer : Type} [DecidableEq Buffer] {depth : ℕ} (hash : Buffer → Buffer → Buffer)
  (initialLeaf : Buffer)

def updateLeaf (t : TreeBase Buffer depth) (leaf : Buffer) (index : ℕ) :
    Except String (TreeBase Buffer depth) :=
  if index > maxIndex depth then .error "Index out of bounds."
  else
    let insertingZeroElement := leaf = initialLeaf
    let originallyZeroElement := getLeafValue hash initialLeaf t index true = initialLeaf
    if insertingZeroElement ∧ originallyZeroElement then .ok t
    else
      let t := addLeafToCacheAndHashToRoot hash initialLeaf t leaf index
      if insertingZeroElement then .ok { t with cachedSize := some (t.cachedSize.getD t.size - 1) }
      else if originallyZeroElement then
        .ok { t with cachedSize := some (t.cachedSize.getD t.size + 1) }
      else .ok t

end SparseTree

namespace LeafArray

/-! ### Runs -/

/-- What is done to a tree; `W` is what is written to it. -/
inductive Action (W : Type) where
  | write (w : W)
  | commit
  | rollback
  deriving DecidableEq

section Runs

variable {Buffer W V : Type} {depth : ℕ}
  (write : TreeBase Buffer depth → W → Except String (TreeBase Buffer depth))

/-- One action.  A write that throws changes nothing. -/
def step (t : TreeBase Buffer depth) : Action W → TreeBase Buffer depth
  | .write w =>
    match write t w with
    | .ok t' => t'
    | .error _ => t
  | .commit => t.commit
  | .rollback => t.rollback

def run (hash : Buffer → Buffer → Buffer) (initialLeaf : Buffer) (actions : List (Action W)) :
    TreeBase Buffer depth :=
  actions.foldl (step write) (TreeBase.new hash initialLeaf depth)

structure Views (V : Type) where
  committed : V
  uncommitted : V

def Views.view (views : Views V) (includeUncommitted : Bool) : V :=
  if includeUncommitted then views.uncommitted else views.committed

def Views.step (update : V → W → V) (views : Views V) : Action W → Views V
  | .write w => { views with uncommitted := update views.uncommitted w }
  | .commit => ⟨views.uncommitted, views.uncommitted⟩
  | .rollback => ⟨views.committed, views.committed⟩

def Views.run (update : V → W → V) (initial : V) (actions : List (Action W)) : Views V :=
  actions.foldl (Views.step update) ⟨initial, initial⟩

theorem Views.committed_foldl {update : V → W → V} {actions : List (Action W)}
    (h : Action.commit ∉ actions) (views : Views V) :
    (actions.foldl (Views.step update) views).committed = views.committed := by
  induction actions generalizing views with
  | nil => rfl
  | cons action actions ih =>
    have hrest : Action.commit ∉ actions := fun hmem => h (mem_cons_of_mem _ hmem)
    rw [foldl_cons, ih hrest]
    cases action with
    | write w => rfl
    | commit => exact absurd mem_cons_self h
    | rollback => rfl

end Runs

/-! ### The answers -/

section Answers

variable {Buffer : Type} {depth : ℕ} (hash : Buffer → Buffer → Buffer) (initialLeaf : Buffer)

/-- The answers of the tree to a reader are those of an array with so many leaves: its root is the
Merkle root, its leaves are the entries, hashing an entry up along its sibling path gives the root,
and it has as many leaves. -/
structure Answers (t : TreeBase Buffer depth) (includeUncommitted : Bool) (entries : ℕ → Buffer)
    (numLeaves : ℕ) : Prop where
  root_eq : t.getRoot includeUncommitted = node hash entries depth 0
  leaf_eq : ∀ i < 2 ^ depth, getLeafValue hash initialLeaf t i includeUncommitted = entries i
  path_eq : ∀ i < 2 ^ depth,
    climb hash i (entries i) (getSiblingPath hash initialLeaf t i includeUncommitted) =
      t.getRoot includeUncommitted
  numLeaves_eq : t.getNumLeaves includeUncommitted = numLeaves

/-- The tree stands for the two versions of an array: its nodes are those of the perfect trees over
them, and its sizes are their numbers of leaves. -/
structure Stands {V : Type} (entries : V → ℕ → Buffer) (numLeaves : V → ℕ)
    (t : TreeBase Buffer depth) (views : Views V) : Prop where
  contents : Contents hash initialLeaf t (entries views.committed) (entries views.uncommitted)
  size_eq : t.size = numLeaves views.committed
  cachedSize_eq : t.getNumLeaves true = numLeaves views.uncommitted

variable {hash initialLeaf} {V W : Type} {entries : V → ℕ → Buffer} {numLeaves : V → ℕ}
  {t : TreeBase Buffer depth} {views : Views V}

section

variable (h : Stands hash initialLeaf entries numLeaves t views)
include h

theorem Stands.answers (includeUncommitted : Bool) :
    Answers hash initialLeaf t includeUncommitted (entries (views.view includeUncommitted))
      (numLeaves (views.view includeUncommitted)) := by
  have hview : entries (views.view includeUncommitted) =
      if includeUncommitted then entries views.uncommitted else entries views.committed := by
    cases includeUncommitted <;> rfl
  have hroot : t.getRoot includeUncommitted =
      node hash (entries (views.view includeUncommitted)) depth 0 := by
    rw [hview]
    exact h.contents.getRoot includeUncommitted
  refine ⟨hroot, fun i _ => ?_, fun i hi => ?_, ?_⟩
  · rw [h.contents.getLeafValue]
    cases includeUncommitted <;> rfl
  · have hleaf : entries (views.view includeUncommitted) i =
        node hash (entries (views.view includeUncommitted)) 0 i := rfl
    rw [hroot, h.contents.getSiblingPath, ← hview, hleaf, climb_siblings,
      Nat.div_eq_of_lt hi, Nat.zero_add]
  · cases includeUncommitted with
    | false => exact h.size_eq
    | true => exact h.cachedSize_eq

theorem Stands.commit : Stands hash initialLeaf entries numLeaves t.commit
      ⟨views.uncommitted, views.uncommitted⟩ :=
  ⟨h.contents.commit, h.cachedSize_eq, h.cachedSize_eq⟩

theorem Stands.rollback :
    Stands hash initialLeaf entries numLeaves t.rollback ⟨views.committed, views.committed⟩ :=
  ⟨h.contents.rollback, h.size_eq, h.size_eq⟩

end

/-- **The simulation**: if a write that starts from a tree standing for an array leaves one that
stands for the updated array, the tree of every run stands for the array of that run. -/
theorem stands_run {write : TreeBase Buffer depth → W → Except String (TreeBase Buffer depth)}
    {update : V → W → V} {initial : V} (hentries : entries initial = fun _ => initialLeaf)
    (hnumLeaves : numLeaves initial = 0)
    (hwrite : ∀ (t : TreeBase Buffer depth) (views : Views V) (w : W),
      Stands hash initialLeaf entries numLeaves t views →
      Stands hash initialLeaf entries numLeaves (step write t (.write w))
        (views.step update (.write w))) (actions : List (Action W)) :
    Stands hash initialLeaf entries numLeaves (run write hash initialLeaf actions)
      (Views.run update initial actions) := by
  induction actions using reverseRecOn with
  | nil =>
    refine ⟨?_, hnumLeaves.symm, hnumLeaves.symm⟩
    have hnew : Contents hash initialLeaf (TreeBase.new hash initialLeaf depth)
        (fun _ => initialLeaf) (fun _ => initialLeaf) := contents_new
    rw [← hentries] at hnew
    exact hnew
  | append_singleton actions action ih =>
    rw [run, Views.run, foldl_append, foldl_append]
    cases action with
    | write w => exact hwrite _ _ w ih
    | commit => exact ih.commit
    | rollback => exact ih.rollback

end Answers

/-! ### Appending -/

section Standard

variable {Buffer : Type} {depth : ℕ} (hash : Buffer → Buffer → Buffer) (initialLeaf : Buffer)

def padded (l : List Buffer) (i : ℕ) : Buffer := (l[i]?).getD initialLeaf

def append (depth : ℕ) (l leaves : List Buffer) : List Buffer :=
  if l.length + leaves.length ≤ 2 ^ depth then l ++ leaves else l

variable {hash initialLeaf}

theorem writeLeaves_padded (l leaves : List Buffer) :
    writeLeaves (padded initialLeaf l) l.length leaves = padded initialLeaf (l ++ leaves) := by
  funext i
  unfold writeLeaves padded
  split
  · next h =>
    rw [getElem?_append_right h]
    cases leaves[i - l.length]? with
    | none => rw [Option.getD_none, getElem?_eq_none h]
    | some leaf => rfl
  · next h => rw [getElem?_append_left (not_le.1 h)]

theorem stands_appendLeaves {t : TreeBase Buffer depth} {views : Views (List Buffer)}
    (h : Stands hash initialLeaf (padded initialLeaf) length t views) (leaves : List Buffer) :
    Stands hash initialLeaf (padded initialLeaf) length
      (step (TreeBase.appendLeaves hash initialLeaf) t (.write leaves))
      (views.step (append depth) (.write leaves)) := by
  rcases le_or_gt (views.uncommitted.length + leaves.length) (2 ^ depth) with hfits | hfull
  · have hroom : t.getNumLeaves true + leaves.length ≤ 2 ^ depth := by rwa [h.cachedSize_eq]
    obtain ⟨t', ht'⟩ : ∃ t', TreeBase.appendLeaves hash initialLeaf t leaves = .ok t' :=
      appendLeaves_isOk hroom
    obtain ⟨⟨-, -, hsize⟩, hnum, -⟩ := appendLeaves_same ht'
    have hcontents := h.contents.appendLeaves ht'
    rw [h.cachedSize_eq, writeLeaves_padded] at hcontents
    simp only [step, ht', Views.step, append, if_pos hfits]
    exact ⟨hcontents, hsize.trans h.size_eq, by rw [hnum, h.cachedSize_eq, length_append]⟩
  · have hthrows : TreeBase.appendLeaves hash initialLeaf t leaves =
        .error ("Can't append beyond max index. Max index: " ++ toString (maxIndex depth)) := by
      have hpos : 0 < 2 ^ depth := by positivity
      rw [TreeBase.appendLeaves, if_pos]
      rw [h.cachedSize_eq, maxIndex]
      omega
    simp only [step, hthrows, Views.step, append, if_neg (not_le.2 hfull)]
    exact h

end Standard

/-! ### Overwriting -/

section Sparse

variable {Buffer : Type} [DecidableEq Buffer] {depth : ℕ} (hash : Buffer → Buffer → Buffer)
  (initialLeaf : Buffer)

def numNonZero (depth : ℕ) (entries : ℕ → Buffer) : ℕ :=
  ((Finset.range (2 ^ depth)).filter fun i => entries i ≠ initialLeaf).card

/-- Overwriting an entry; indices beyond the last are refused. -/
def overwrite (depth : ℕ) (entries : ℕ → Buffer) (leaf : Buffer × ℕ) : ℕ → Buffer :=
  if leaf.2 < 2 ^ depth then Function.update entries leaf.2 leaf.1 else entries

variable {hash initialLeaf}

section

variable {entries : ℕ → Buffer} {index : ℕ}

theorem numNonZero_insert {leaf : Buffer}
    (hindex : index < 2 ^ depth) (hold : entries index = initialLeaf) (hnew : leaf ≠ initialLeaf) :
    numNonZero initialLeaf depth (update entries index leaf) =
      numNonZero initialLeaf depth entries + 1 := by
  have hset : ((Finset.range (2 ^ depth)).filter fun i =>
      update entries index leaf i ≠ initialLeaf) =
      insert index ((Finset.range (2 ^ depth)).filter fun i => entries i ≠ initialLeaf) := by
    ext i
    rcases eq_or_ne i index with rfl | hne
    · simp [hindex, hnew]
    · simp [hne]
  rw [numNonZero, hset, Finset.card_insert_of_notMem (by simp [hold]), numNonZero]

theorem numNonZero_congr {leaf : Buffer}
    (hold : entries index ≠ initialLeaf) (hnew : leaf ≠ initialLeaf) :
    numNonZero initialLeaf depth (update entries index leaf) =
      numNonZero initialLeaf depth entries := by
  unfold numNonZero
  congr 1
  ext i
  rcases eq_or_ne i index with rfl | hne
  · simp [hold, hnew]
  · simp [hne]

theorem numNonZero_remove (hindex : index < 2 ^ depth)
    (hold : entries index ≠ initialLeaf) : numNonZero initialLeaf depth entries =
      numNonZero initialLeaf depth (update entries index initialLeaf) + 1 := by
  have hback := @numNonZero_insert _ _ depth initialLeaf
    (update entries index initialLeaf) index _ hindex (update_self ..) hold
  rwa [update_idem, update_eq_self] at hback

end

theorem stands_updateLeaf {t : TreeBase Buffer depth} {views : Views (ℕ → Buffer)}
    (h : Stands hash initialLeaf id (numNonZero initialLeaf depth) t views) (leaf : Buffer × ℕ) :
    Stands hash initialLeaf id (numNonZero initialLeaf depth)
      (step (fun t leaf => SparseTree.updateLeaf hash initialLeaf t leaf.1 leaf.2) t (.write leaf))
      (views.step (overwrite depth) (.write leaf)) := by
  obtain ⟨leaf, index⟩ := leaf
  have hpos : 0 < 2 ^ depth := by positivity
  rcases lt_or_ge index (2 ^ depth) with hindex | hindex
  swap
  · have hthrows : SparseTree.updateLeaf hash initialLeaf t leaf index =
        .error "Index out of bounds." := by
      rw [SparseTree.updateLeaf, if_pos]
      rw [maxIndex]
      omega
    simp only [step, hthrows, Views.step, overwrite, if_neg (not_lt.2 hindex)]
    exact h
  have hold : getLeafValue hash initialLeaf t index true = views.uncommitted index := by
    rw [h.contents.getLeafValue]
    rfl
  obtain ⟨⟨-, -, hsize⟩, hnum⟩ :=
    @addLeafToCacheAndHashToRoot_same _ _ hash initialLeaf t leaf index
  have hcontents := h.contents.addLeafToCacheAndHashToRoot leaf index
  set t' := addLeafToCacheAndHashToRoot hash initialLeaf t leaf index
  have hcached : t'.cachedSize.getD t'.size = numNonZero initialLeaf depth views.uncommitted :=
    hnum.trans h.cachedSize_eq
  simp only [step, SparseTree.updateLeaf, maxIndex, if_neg (by omega : ¬index > 2 ^ depth - 1),
    hold, Views.step, overwrite, if_pos hindex]
  -- the size follows the old and the new entry
  by_cases hnew : leaf = initialLeaf
  · subst hnew
    by_cases hzero : views.uncommitted index = leaf
    · have hsame : update views.uncommitted index leaf = views.uncommitted := by
        rw [← hzero, update_eq_self]
      simpa only [hzero, and_self, if_true, hsame] using h
    · simp only [hzero, and_false, if_false, if_true]
      refine ⟨⟨hcontents.committed, hcontents.uncommitted, hcontents.root_eq⟩,
        hsize.trans h.size_eq, ?_⟩
      have hcount := numNonZero_remove hindex hzero
      rw [getNumLeaves, if_pos rfl, Option.getD_some, hcached]
      change _ = numNonZero leaf depth (update views.uncommitted index leaf)
      omega
  · by_cases hzero : views.uncommitted index = initialLeaf
    · simp only [hnew, false_and, if_false, hzero, if_true]
      refine ⟨⟨hcontents.committed, hcontents.uncommitted, hcontents.root_eq⟩,
        hsize.trans h.size_eq, ?_⟩
      rw [getNumLeaves, if_pos rfl, Option.getD_some, hcached]
      exact (numNonZero_insert hindex hzero hnew).symm
    · simp only [hnew, false_and, if_false, hzero]
      exact ⟨hcontents, hsize.trans h.size_eq,
        (hnum.trans h.cachedSize_eq).trans (numNonZero_congr hzero hnew).symm⟩

end Sparse

/-! ### Every run -/

section EveryRun

variable {Buffer : Type} [DecidableEq Buffer] (hash : Buffer → Buffer → Buffer)
  (initialLeaf : Buffer) (depth : ℕ)

def runStandard (actions : List (Action (List Buffer))) : TreeBase Buffer depth :=
  run (TreeBase.appendLeaves hash initialLeaf) hash initialLeaf actions

/-- The lists of leaves a run of a `StandardTree` is to hold. -/
def listsOf (actions : List (Action (List Buffer))) : Views (List Buffer) :=
  Views.run (append depth) [] actions

def runSparse (actions : List (Action (Buffer × ℕ))) : TreeBase Buffer depth :=
  run (fun t leaf => SparseTree.updateLeaf hash initialLeaf t leaf.1 leaf.2) hash initialLeaf
    actions

/-- The arrays of leaves a run of a `SparseTree` is to hold. -/
def arraysOf (actions : List (Action (Buffer × ℕ))) : Views (ℕ → Buffer) :=
  Views.run (overwrite depth) (fun _ => initialLeaf) actions

theorem Views.view_rollback {V W : Type} (update : V → W → V) (initial : V)
    {before after : List (Action W)} (h : Action.commit ∉ after) (b b' : Bool) :
    (Views.run update initial (before ++ .commit :: after ++ [.rollback])).view b =
      (Views.run update initial (before ++ [.commit])).view b' := by
  have hview : ∀ (v : V) (b : Bool), (Views.mk v v).view b = v := by
    intro v b
    cases b <;> rfl
  rw [Views.run, Views.run, foldl_append, foldl_append, foldl_cons,
    foldl_append, foldl_cons, foldl_nil, foldl_cons, foldl_nil]
  simp only [Views.step, hview, Views.committed_foldl h]

theorem stands_standard {Buffer : Type} (hash : Buffer → Buffer → Buffer) (initialLeaf : Buffer)
    (depth : ℕ) (actions : List (Action (List Buffer))) :
    Stands hash initialLeaf (padded initialLeaf) length
      (runStandard hash initialLeaf depth actions) (listsOf depth actions) := by
  have hempty : padded initialLeaf [] = fun _ => initialLeaf := rfl
  exact stands_run hempty length_nil (fun t views leaves h => stands_appendLeaves h leaves) actions

theorem stands_sparse (actions : List (Action (Buffer × ℕ))) :
    Stands hash initialLeaf id (numNonZero initialLeaf depth)
      (runSparse hash initialLeaf depth actions) (arraysOf initialLeaf depth actions) :=
  stands_run rfl (by simp [numNonZero]) (fun t views leaf h => stands_updateLeaf h leaf) actions

/-- **Every run of a standard or a sparse tree answers as its array of leaves**, with and without
the pending changes; and after a rollback both are those of the last commit. -/
theorem answers_run : (∀ actions includeUncommitted, Answers hash initialLeaf
      (runStandard hash initialLeaf depth actions) includeUncommitted
      (padded initialLeaf ((listsOf depth actions).view includeUncommitted))
      ((listsOf depth actions).view includeUncommitted).length) ∧
    (∀ actions includeUncommitted, Answers hash initialLeaf
      (runSparse hash initialLeaf depth actions) includeUncommitted
      ((arraysOf initialLeaf depth actions).view includeUncommitted)
      (numNonZero initialLeaf depth ((arraysOf initialLeaf depth actions).view
        includeUncommitted))) ∧
    (∀ (before after : List (Action (List Buffer))) (b b' : Bool), Action.commit ∉ after →
      (listsOf depth (before ++ .commit :: after ++ [.rollback])).view b =
        (listsOf depth (before ++ [.commit])).view b') ∧
    ∀ (before after : List (Action (Buffer × ℕ))) (b b' : Bool), Action.commit ∉ after →
      (arraysOf initialLeaf depth (before ++ .commit :: after ++ [.rollback])).view b =
        (arraysOf initialLeaf depth (before ++ [.commit])).view b' := by
  exact ⟨fun actions includeUncommitted =>
      (stands_standard hash initialLeaf depth actions).answers includeUncommitted,
    fun actions includeUncommitted =>
      (stands_sparse hash initialLeaf depth actions).answers includeUncommitted,
    fun before after b b' h => Views.view_rollback _ _ h b b',
    fun before after b b' h => Views.view_rollback _ _ h b b'⟩

end EveryRun

end LeafArray
