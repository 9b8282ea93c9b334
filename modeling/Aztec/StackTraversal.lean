/-
**Trees visited with a stack.**

A traversal keeps a stack of requests.  Each turn pops the last request, visits a node that answers
it, and pushes the requests of that node.  A traversal that empties its stack has visited the nodes
of a forest, one tree for each request that was on the stack, each node after its parent and before
its children, the children from the last requested to the first.
-/

import Mathlib.Data.List.Basic
import Mathlib.Data.List.Forall2

open List

namespace StackTraversal

variable {C D R : Type}

/-! ### Trees -/

inductive RoseTree (C : Type) where
  | node (label : C) (children : List (RoseTree C))

open RoseTree

namespace RoseTree

def root : RoseTree C → C
  | node label _ => label

@[simp] theorem root_node (c : C) (ts : List (RoseTree C)) : (node c ts).root = c := rfl

mutual

def preorder : RoseTree C → List C
  | node label children => label :: forestPreorder children

def forestPreorder : List (RoseTree C) → List C
  | [] => []
  | t :: ts => preorder t ++ forestPreorder ts

end

@[simp] theorem preorder_node (c : C) (ts : List (RoseTree C)) :
    (node c ts).preorder = c :: forestPreorder ts := by
  rw [preorder]

theorem forestPreorder_append (ts us : List (RoseTree C)) :
    forestPreorder (ts ++ us) = forestPreorder ts ++ forestPreorder us := by
  induction ts with
  | nil => rfl
  | cons t ts ih => rw [cons_append, forestPreorder, forestPreorder, ih, append_assoc]

mutual

def map (f : C → D) : RoseTree C → RoseTree D
  | node label children => node (f label) (mapForest f children)

def mapForest (f : C → D) : List (RoseTree C) → List (RoseTree D)
  | [] => []
  | t :: ts => map f t :: mapForest f ts

end

theorem mapForest_eq (f : C → D) (ts : List (RoseTree C)) : mapForest f ts = ts.map (map f) := by
  induction ts with
  | nil => rfl
  | cons t ts ih => rw [mapForest, ih, map_cons]

@[simp] theorem root_map (f : C → D) (t : RoseTree C) : (t.map f).root = f t.root := by
  cases t with
  | node c ts => rw [map, root_node, root_node]

/-- The label of every node is related to those of its children. -/
inductive Each (P : C → List C → Prop) : RoseTree C → Prop where
  | node {c : C} {ts : List (RoseTree C)} (here : P c (ts.map root)) (below : ∀ t ∈ ts, Each P t) :
      Each P (node c ts)

variable {P : C → List C → Prop} {t : RoseTree C}

theorem Each.map {Q : D → List D → Prop} {f : C → D} (h : ∀ c cs, P c cs → Q (f c) (cs.map f))
    (ht : Each P t) : Each Q (t.map f) := by
  induction ht with
  | @node c ts here below ih =>
    rw [RoseTree.map, mapForest_eq]
    refine .node ?_ fun u hu => ?_
    · have hroots : (ts.map (RoseTree.map f)).map root = (ts.map root).map f := by
        rw [List.map_map, List.map_map]
        exact map_congr_left fun t _ => root_map f t
      rw [hroots]
      exact h c _ here
    · obtain ⟨t, hmem, rfl⟩ := mem_map.1 hu
      exact ih t hmem

theorem Each.strengthen {good : C → Prop} (hpass : ∀ c cs, P c cs → ∀ d ∈ cs, good d)
    (ht : Each P t) : good t.root → Each (fun c cs => P c cs ∧ good c) t := by
  induction ht with
  | @node c ts here below ih =>
    intro hgood
    exact .node ⟨here, hgood⟩ fun t ht =>
      ih t ht (hpass _ _ here t.root (mem_map_of_mem ht))

theorem Each.imp {Q : C → List C → Prop} (h : ∀ c cs, P c cs → Q c cs) (ht : Each P t) :
    Each Q t := by
  induction ht with
  | node here below ih => exact .node (h _ _ here) ih

theorem Each.unique (hP : ∀ c cs ds, P c cs → P c ds → cs = ds) (ht : Each P t) :
    ∀ u, Each P u → u.root = t.root → u = t := by
  induction ht with
  | @node c ts here below ih =>
    intro u hu hroot
    cases hu with
    | @node d us here' below' =>
      rw [root_node, root_node] at hroot
      subst hroot
      have hroots := hP _ _ _ here' here
      congr 1
      refine ext_getElem ?_ fun i hi hi' => ?_
      · simpa using congrArg List.length hroots
      · refine ih _ (getElem_mem hi') _ (below' _ (getElem_mem hi)) ?_
        have hget := congrArg (fun l : List C => l[i]?) hroots
        simp only [List.getElem?_map, List.getElem?_eq_getElem hi,
          List.getElem?_eq_getElem hi', Option.map_some, Option.some.injEq] at hget
        exact hget

end RoseTree

/-! ### Traversals -/

variable {pushes : C → List R} {answers : R → C → Prop}

/-- A traversal from one stack to another, with the nodes it visits. -/
inductive Run (pushes : C → List R) (answers : R → C → Prop) : List R → List C → List R → Prop where
  | nil (s : List R) : Run pushes answers s [] s
  | cons {s t : List R} {r : R} {c : C} {cs : List C} (here : answers r c)
      (rest : Run pushes answers (s ++ pushes c) cs t) : Run pushes answers (s ++ [r]) (c :: cs) t

theorem exists_of_forall₂ {rs : List R} {cs : List C} (h : List.Forall₂ answers rs cs) :
    ∀ c ∈ cs, ∃ r ∈ rs, answers r c := by
  induction h with
  | nil => exact fun c hc => absurd hc not_mem_nil
  | @cons r c rs cs here _ ih =>
    intro d hd
    rcases mem_cons.1 hd with rfl | hd
    · exact ⟨r, mem_cons_self, here⟩
    · obtain ⟨r', hr', h'⟩ := ih d hd
      exact ⟨r', mem_cons_of_mem _ hr', h'⟩

/-- The children of a node answer its requests, the last one first. -/
def ChildrenAnswer (pushes : C → List R) (answers : R → C → Prop) (c : C) (cs : List C) : Prop :=
  List.Forall₂ answers (pushes c).reverse cs

/-- **A traversal that ends with an empty stack has visited, in preorder, one tree for each request
that was on the stack**, the last one first. -/
theorem Run.exists_forest {s t : List R} {cs : List C} (h : Run pushes answers s cs t) :
    t = [] → ∃ ts : List (RoseTree C), cs = forestPreorder ts ∧
      List.Forall₂ answers s.reverse (ts.map root) ∧
      ∀ t ∈ ts, t.Each (ChildrenAnswer pushes answers) := by
  induction h with
  | nil s => rintro rfl; exact ⟨[], rfl, .nil, fun t ht => absurd ht not_mem_nil⟩
  | @cons s t r c cs here rest ih =>
    intro ht
    obtain ⟨ts, rfl, hroots, hts⟩ := ih ht
    rw [reverse_append] at hroots
    -- the trees visited next answer the requests of `c`, the others those that were left
    have hbelow := List.forall₂_take (pushes c).reverse.length hroots
    have hothers := List.forall₂_drop (pushes c).reverse.length hroots
    rw [take_left' rfl, ← map_take] at hbelow
    rw [drop_left' rfl, ← map_drop] at hothers
    refine ⟨.node c (ts.take (pushes c).reverse.length) ::
      ts.drop (pushes c).reverse.length, ?_, ?_, ?_⟩
    · rw [forestPreorder, preorder_node, cons_append, ← forestPreorder_append, take_append_drop]
    · rw [reverse_append, map_cons]
      exact .cons here hothers
    · intro t ht
      rcases mem_cons.1 ht with rfl | ht
      · exact .node hbelow fun t ht => hts t (mem_of_mem_take ht)
      · exact hts t (mem_of_mem_drop ht)

/-! ### Loops over a stack of trees -/

/-- The values at the nodes, each before those of its subtrees, the subtrees from the last to the
first. -/
def RoseTree.collect (f : C → D) : RoseTree C → List D
  | .node label children => f label :: children.reverse.attach.flatMap fun t => t.1.collect f
decreasing_by
  have hlt := sizeOf_lt_of_mem (mem_reverse.1 t.2)
  simp only [node.sizeOf_spec]
  omega

theorem RoseTree.collect_node (f : C → D) (c : C) (ts : List (RoseTree C)) :
    (node c ts).collect f = f c :: ts.reverse.flatMap (collect f) := by
  rw [collect]
  congr 1
  rw [flatMap_subtype, unattach_attach]
  exact fun t _ => rfl

theorem RoseTree.length_forestPreorder_reverse (ts : List (RoseTree C)) :
    (forestPreorder ts.reverse).length = (forestPreorder ts).length := by
  induction ts with
  | nil => rfl
  | cons t ts ih =>
    rw [reverse_cons, forestPreorder_append, length_append, ih, forestPreorder, forestPreorder,
      forestPreorder, append_nil, length_append, Nat.add_comm]

section Loop

variable {S ε : Type} (turn : S → C → Except ε S)

/-- A loop over a stack of trees, listed from its top: a turn takes the tree at the top, changes the
state by its root, and pushes its subtrees one after the other. -/
def loop : List (RoseTree C) → S → Except ε S
  | [], s => .ok s
  | .node label children :: stack, s => do
    let s ← turn s label
    loop (children.reverse ++ stack) s
termination_by stack => (forestPreorder stack).length
decreasing_by
  rw [forestPreorder_append, forestPreorder, preorder_node,
    length_append, length_append, length_cons, unattach_reverse,
    unattach_attach, length_forestPreorder_reverse]
  omega

theorem loop_eq (stack : List (RoseTree C)) (s : S) :
    loop turn stack s = (stack.flatMap (collect id)).foldlM turn s := by
  induction stack, s using loop.induct with
  | case1 s => rw [loop]; rfl
  | case2 label children stack s ih =>
    rw [loop, flatMap_cons, collect_node, cons_append, foldlM_cons]
    refine congrArg (turn s label >>= ·) (funext fun s' => ?_)
    have hrest := ih s'
    rw [unattach_reverse, unattach_attach] at hrest
    rw [hrest, flatMap_append]

theorem RoseTree.collect_eq_map (f : C → D) (t : RoseTree C) :
    t.collect f = (t.collect id).map f := by
  induction t using collect.induct with
  | case1 label children ih =>
    rw [collect_node, collect_node, map_cons, map_flatMap]
    refine congrArg (f label :: ·) (flatMap_congr fun t ht => ih ⟨t, ht⟩)

end Loop

end StackTraversal
