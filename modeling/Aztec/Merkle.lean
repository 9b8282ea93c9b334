/-
**Perfect binary Merkle trees over an arbitrary two-to-one hash.**

A tree is given by its leaves, a function on the natural numbers, and a hash `H : α → α → α`.
Nothing is assumed about `H` unless a statement says so; the soundness half of the module assumes
that it is injective in both arguments together, which is how a collision-free hash is idealised.

Heights are counted from the leaves: `node H f h i` is the node at height `h` and position `i`,
whose block of leaves is `i * 2 ^ h, …, (i + 1) * 2 ^ h - 1`.
-/

import Mathlib.Tactic

namespace Merkle

variable {α : Type*}

/-! ### Nodes -/

/-- The node at height `h` and position `i` of the perfect tree with leaves `f`. -/
def node (H : α → α → α) (f : ℕ → α) : ℕ → ℕ → α
  | 0, i => f i
  | h + 1, i => H (node H f h (2 * i)) (node H f h (2 * i + 1))

/-- The node at height `h` of a tree all of whose leaves are `z`. -/
def zeroNode (H : α → α → α) (z : α) : ℕ → α
  | 0 => z
  | h + 1 => H (zeroNode H z h) (zeroNode H z h)

@[simp] theorem node_zero (H : α → α → α) (f : ℕ → α) (i : ℕ) : node H f 0 i = f i := rfl

theorem node_succ (H : α → α → α) (f : ℕ → α) (h i : ℕ) :
    node H f (h + 1) i = H (node H f h (2 * i)) (node H f h (2 * i + 1)) := rfl

@[simp] theorem zeroNode_zero (H : α → α → α) (z : α) : zeroNode H z 0 = z := rfl

theorem zeroNode_succ (H : α → α → α) (z : α) (h : ℕ) :
    zeroNode H z (h + 1) = H (zeroNode H z h) (zeroNode H z h) := rfl

theorem two_mul_mul_pow (i h : ℕ) : 2 * i * 2 ^ h = i * 2 ^ (h + 1) := by ring

theorem two_mul_add_two_mul_pow (i h : ℕ) : (2 * i + 1 + 1) * 2 ^ h = (i + 1) * 2 ^ (h + 1) := by
  ring

variable {f g : ℕ → α} {j h i : ℕ} {H : α → α → α}

theorem node_congr :
    ∀ {h i : ℕ}, (∀ j, i * 2 ^ h ≤ j → j < (i + 1) * 2 ^ h → f j = g j) →
      node H f h i = node H g h i := by
  intro h
  induction h with
  | zero => intro i hfg; exact hfg i (by simp) (by simp)
  | succ h ih =>
    intro i hfg
    have hl : i * 2 ^ (h + 1) = 2 * i * 2 ^ h := (two_mul_mul_pow i h).symm
    have hr : (i + 1) * 2 ^ (h + 1) = (2 * i + 1 + 1) * 2 ^ h :=
      (two_mul_add_two_mul_pow i h).symm
    have hm : (2 * i + 1) * 2 ^ h = 2 * i * 2 ^ h + 2 ^ h := by ring
    have hm' : (2 * i + 1 + 1) * 2 ^ h = (2 * i + 1) * 2 ^ h + 2 ^ h := by ring
    rw [node_succ, node_succ, ih (i := 2 * i), ih (i := 2 * i + 1)]
    · intro j h₁ h₂; exact hfg j (by omega) (by omega)
    · intro j h₁ h₂; exact hfg j (by omega) (by omega)

theorem node_congr_block :
    ∀ {h i i' : ℕ}, (∀ k < 2 ^ h, f (i * 2 ^ h + k) = g (i' * 2 ^ h + k)) →
      node H f h i = node H g h i' := by
  intro h
  induction h with
  | zero => intro i i' hfg; simpa using hfg 0 (by simp)
  | succ h ih =>
    intro i i' hfg
    have hl : node H f h (2 * i) = node H g h (2 * i') := ih fun k hk => by
      rw [two_mul_mul_pow, two_mul_mul_pow]
      exact hfg k (by omega)
    have hr : node H f h (2 * i + 1) = node H g h (2 * i' + 1) := ih fun k hk => by
      rw [Nat.add_mul, Nat.add_mul, Nat.one_mul, two_mul_mul_pow, two_mul_mul_pow, Nat.add_assoc,
        Nat.add_assoc]
      exact hfg (2 ^ h + k) (by omega)
    rw [node_succ, node_succ, hl, hr]

theorem node_const {z : α} :
    ∀ {h i : ℕ}, (∀ j, i * 2 ^ h ≤ j → j < (i + 1) * 2 ^ h → f j = z) →
      node H f h i = zeroNode H z h := by
  intro h i hf
  rw [node_congr (g := fun _ => z) hf]
  clear hf
  induction h generalizing i with
  | zero => rfl
  | succ h ih => rw [node_succ, zeroNode_succ, ih, ih]

theorem block_of_div (j h : ℕ) : j / 2 ^ h * 2 ^ h ≤ j ∧ j < (j / 2 ^ h + 1) * 2 ^ h := by
  have hpos : 0 < 2 ^ h := by positivity
  refine ⟨Nat.div_mul_le_self j _, ?_⟩
  have := Nat.lt_div_mul_add (a := j) hpos
  rw [Nat.add_mul, Nat.one_mul]
  exact this

theorem div_of_block (h₁ : i * 2 ^ h ≤ j) (h₂ : j < (i + 1) * 2 ^ h) : j / 2 ^ h = i :=
  Nat.div_eq_of_lt_le h₁ (by simpa using h₂)

theorem div_eq_iff_block : j / 2 ^ h = i ↔ i * 2 ^ h ≤ j ∧ j < (i + 1) * 2 ^ h := by
  constructor
  · rintro rfl; exact block_of_div j h
  · rintro ⟨h₁, h₂⟩; exact div_of_block h₁ h₂

theorem div_pow_div_two (j h : ℕ) : j / 2 ^ h / 2 = j / 2 ^ (h + 1) := by
  rw [Nat.div_div_eq_div_mul, ← pow_succ]

theorem div_two_div_pow (j h : ℕ) : j / 2 / 2 ^ h = j / 2 ^ (h + 1) := by
  rw [Nat.div_div_eq_div_mul, ← pow_succ']

theorem node_update_of_ne (v : α) (hne : j / 2 ^ h ≠ i) :
    node H (Function.update f j v) h i = node H f h i := by
  refine node_congr fun k h₁ h₂ => Function.update_of_ne ?_ _ _
  rintro rfl
  exact hne (div_of_block h₁ h₂)

/-! ### Paths -/

/-- The position of the sibling of node `i`: one to the left of an odd position, one to the right
of an even one. -/
def siblingIndex (i : ℕ) : ℕ := if i % 2 = 1 then i - 1 else i + 1

theorem siblingIndex_of_odd (h : i % 2 = 1) : siblingIndex i = 2 * (i / 2) := by
  rw [siblingIndex, if_pos h]; omega

theorem siblingIndex_of_even (h : ¬i % 2 = 1) : siblingIndex i = 2 * (i / 2) + 1 := by
  rw [siblingIndex, if_neg h]; omega

/-- Hashing the value `x` of node `i` up along a path of siblings, lowest sibling first. -/
def climb (H : α → α → α) : ℕ → α → List α → α
  | _, x, [] => x
  | i, x, s :: p => climb H (i / 2) (if i % 2 = 1 then H s x else H x s) p

/-- The `n` siblings met on the way up from node `i` at height `h`. -/
def siblings (H : α → α → α) (f : ℕ → α) : ℕ → ℕ → ℕ → List α
  | _, _, 0 => []
  | h, i, n + 1 => node H f h (siblingIndex i) :: siblings H f (h + 1) (i / 2) n

@[simp] theorem climb_nil (H : α → α → α) (i : ℕ) (x : α) : climb H i x [] = x := rfl

theorem climb_cons (H : α → α → α) (i : ℕ) (x s : α) (p : List α) :
    climb H i x (s :: p) = climb H (i / 2) (if i % 2 = 1 then H s x else H x s) p := rfl

theorem siblings_succ (H : α → α → α) (f : ℕ → α) (h i n : ℕ) :
    siblings H f h i (n + 1) = node H f h (siblingIndex i) :: siblings H f (h + 1) (i / 2) n := rfl

@[simp] theorem length_siblings (H : α → α → α) (f : ℕ → α) :
    ∀ h i n, (siblings H f h i n).length = n
  | _, _, 0 => rfl
  | h, i, n + 1 => by rw [siblings_succ, List.length_cons, length_siblings H f (h + 1) (i / 2) n]

theorem node_parent (H : α → α → α) (f : ℕ → α) (h i : ℕ) : node H f (h + 1) (i / 2) =
      if i % 2 = 1 then H (node H f h (siblingIndex i)) (node H f h i)
      else H (node H f h i) (node H f h (siblingIndex i)) := by
  rw [node_succ]
  split
  · next hi => rw [siblingIndex_of_odd hi, show 2 * (i / 2) + 1 = i by omega]
  · next hi => rw [siblingIndex_of_even hi, show 2 * (i / 2) = i by omega]

theorem climb_siblings (H : α → α → α) (f : ℕ → α) :
    ∀ n h i, climb H i (node H f h i) (siblings H f h i n) = node H f (h + n) (i / 2 ^ n) := by
  intro n
  induction n with
  | zero => intro h i; simp [siblings]
  | succ n ih =>
    intro h i
    rw [siblings_succ, climb_cons, ← node_parent, ih, div_two_div_pow]
    congr 1
    omega

theorem drop_siblings (H : α → α → α) (f : ℕ → α) :
    ∀ k n h i, (siblings H f h i (k + n)).drop k = siblings H f (h + k) (i / 2 ^ k) n := by
  intro k
  induction k with
  | zero => intro n h i; simp
  | succ k ih =>
    intro n h i
    rw [show k + 1 + n = (k + n) + 1 by omega, siblings_succ, List.drop_succ_cons, ih,
      div_two_div_pow, show h + 1 + k = h + (k + 1) by omega]

theorem siblings_congr : ∀ {n h i : ℕ}, (∀ j, j / 2 ^ h ≠ i → f j = g j) →
      siblings H f h i n = siblings H g h i n := by
  intro n
  induction n with
  | zero => intros; rfl
  | succ n ih =>
    intro h i hfg
    have hs : node H f h (siblingIndex i) = node H g h (siblingIndex i) := by
      refine node_congr fun j h₁ h₂ => hfg j ?_
      rw [div_of_block h₁ h₂, siblingIndex]
      split <;> omega
    rw [siblings_succ, siblings_succ, hs]
    congr 1
    refine ih fun j hj => hfg j ?_
    rintro rfl
    exact hj (div_pow_div_two j h).symm

/-- The leaves of `f` with the block of node `i` at height `h` replaced by that of `g`. -/
def graft (f g : ℕ → α) (h i : ℕ) : ℕ → α := fun j => if j / 2 ^ h = i then g j else f j

theorem graft_of_eq (hj : j / 2 ^ h = i) : graft f g h i j = g j :=
  if_pos hj

theorem graft_of_ne (hj : j / 2 ^ h ≠ i) : graft f g h i j = f j :=
  if_neg hj

theorem graft_leaf (f : ℕ → α) (i : ℕ) (v : α) :
    graft f (fun _ => v) 0 i = Function.update f i v := by
  funext j
  by_cases hj : j = i <;> simp [graft, hj]

theorem node_graft_self (H : α → α → α) (f g : ℕ → α) (h i : ℕ) :
    node H (graft f g h i) h i = node H g h i :=
  node_congr fun _ h₁ h₂ => graft_of_eq (div_of_block h₁ h₂)

/-- **Replacing a block.**  Hashing the node of the replacement up along the siblings of the old
tree gives the node of the tree with the block replaced. -/
theorem climb_graft (H : α → α → α) (f g : ℕ → α) (n h i : ℕ) :
    climb H i (node H g h i) (siblings H f h i n) = node H (graft f g h i) (h + n) (i / 2 ^ n) := by
  have hs : siblings H f h i n = siblings H (graft f g h i) h i n :=
    siblings_congr fun j hj => (graft_of_ne hj).symm
  rw [hs, ← node_graft_self H f g h i, climb_siblings]

theorem climb_update (H : α → α → α) (f : ℕ → α) (n i : ℕ) (v : α) :
    climb H i v (siblings H f 0 i n) = node H (Function.update f i v) n (i / 2 ^ n) := by
  have := climb_graft H f (fun _ => v) n 0 i
  rwa [graft_leaf, node_zero, Nat.zero_add] at this

/-! ### Injective hashes -/

section Injective

variable {H : α → α → α} (hH : Function.Injective2 H)
include hH

variable {f g : ℕ → α} {h i j : ℕ}

theorem node_inj : ∀ {h i i' : ℕ}, node H f h i = node H g h i' →
      ∀ k < 2 ^ h, f (i * 2 ^ h + k) = g (i' * 2 ^ h + k) := by
  intro h
  induction h with
  | zero =>
    intro i i' he k hk
    obtain rfl : k = 0 := by simpa using hk
    simpa using he
  | succ h ih =>
    intro i i' he k hk
    rw [node_succ, node_succ] at he
    obtain ⟨hl, hr⟩ := hH he
    rw [← two_mul_mul_pow, ← two_mul_mul_pow]
    rcases Nat.lt_or_ge k (2 ^ h) with hk' | hk'
    · exact ih hl k hk'
    · have := ih hr (k - 2 ^ h) (by rw [pow_succ] at hk; omega)
      have e₁ : (2 * i + 1) * 2 ^ h + (k - 2 ^ h) = 2 * i * 2 ^ h + k := by
        rw [Nat.add_mul, Nat.one_mul]; omega
      have e₂ : (2 * i' + 1) * 2 ^ h + (k - 2 ^ h) = 2 * i' * 2 ^ h + k := by
        rw [Nat.add_mul, Nat.one_mul]; omega
      rwa [e₁, e₂] at this

theorem leaf_eq_of_node_eq (he : node H f h i = node H g h i) (hj : j / 2 ^ h = i) : f j = g j := by
  obtain ⟨h₁, h₂⟩ := div_eq_iff_block.1 hj
  have := node_inj hH he (j - i * 2 ^ h) (by rw [Nat.add_mul, Nat.one_mul] at h₂; omega)
  rwa [Nat.add_sub_cancel' h₁] at this

theorem eq_of_node_eq_zeroNode {z : α} (he : node H f h i = zeroNode H z h) (hj : j / 2 ^ h = i) :
    f j = z := by
  have hz : node H f h i = node H (fun _ => z) h i := by
    rw [he, node_const]; intros; rfl
  exact leaf_eq_of_node_eq hH hz hj

theorem climb_inj :
    ∀ {p : List α} {h i : ℕ} {x : α}, climb H i x p = node H f (h + p.length) (i / 2 ^ p.length) →
      x = node H f h i ∧ p = siblings H f h i p.length := by
  intro p
  induction p with
  | nil => intro h i x hx; exact ⟨by simpa using hx, rfl⟩
  | cons s p ih =>
    intro h i x hx
    rw [climb_cons, List.length_cons, ← div_two_div_pow,
      show h + (p.length + 1) = h + 1 + p.length by omega] at hx
    obtain ⟨hp, hps⟩ := ih hx
    rw [node_parent] at hp
    rw [List.length_cons, siblings_succ]
    split at hp
    · obtain ⟨hs, hx'⟩ := hH hp
      exact ⟨hx', by rw [← hs, ← hps]⟩
    · obtain ⟨hx', hs⟩ := hH hp
      exact ⟨hx', by rw [← hs, ← hps]⟩

end Injective

/-! ### Hashes of numbers without collisions -/

def pairHash (a b : ℕ) : ℕ := Nat.pair a b + 1

theorem pairHash_injective : Function.Injective2 pairHash := by
  intro a b c d h
  simpa [pairHash, Nat.pair_eq_pair] using h

/-- A hash of lists, which is zero for the empty list only. -/
def listHash (l : List ℕ) : ℕ := l.foldr pairHash 0

theorem listHash_injective : Function.Injective listHash := by
  intro l
  induction l with
  | nil =>
    rintro (_ | ⟨a, m⟩) h
    · rfl
    · simp [listHash, pairHash] at h
  | cons a l ih =>
    rintro (_ | ⟨b, m⟩) h
    · simp [listHash, pairHash] at h
    · obtain ⟨rfl, hlm⟩ := pairHash_injective (show pairHash a (listHash l) = _ from h)
      rw [ih hlm]

end Merkle
