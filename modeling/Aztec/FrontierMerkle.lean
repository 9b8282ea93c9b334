/-
**The frontier tree of the message bridge.**

The L1 contract `FrontierMerkle` keeps one node for each level of a Merkle tree under
construction and recomputes the root from them.  The level written by an insertion is the number
of trailing ones of the insertion counter, so `frontier[l]` always holds the last *completed left*
node of level `l`; that is the invariant `FrontierMerkle.Holds` below, and everything about the
contract follows from it.
-/

import Aztec.Merkle

open Merkle List

/-- The storage of the contract.  `α` is `bytes32`, and the hash `H left right` is
`sha256(bytes.concat(left, right))`. -/
structure FrontierMerkle (α : Type*) where
  /-- The immutable `DEPTH`. -/
  depth : ℕ
  /-- The number of leaves inserted so far. -/
  nextIndex : ℕ
  /-- The mapping from a level to the node kept for it. -/
  frontier : ℕ → α
  /-- The mapping from a level to the node of the empty tree. -/
  zeros : ℕ → α

namespace FrontierMerkle

variable {α : Type*}

/-! ### The contract -/

/-- The immutable `SIZE`. -/
def size (s : FrontierMerkle α) : ℕ := 2 ^ s.depth

/-- The constructor.  `2 ** _depth` is checked arithmetic on `uint256`, so a depth of 256 or more
reverts.  A mapping reads as the zero word `z` where nothing was written. -/
def constructor (H : α → α → α) (z : α) (depth : ℕ) : Option (FrontierMerkle α) :=
  if 2 ^ depth < 2 ^ 256 then
    some
      { depth := depth
        nextIndex := 0
        frontier := fun _ => z
        zeros := (List.range depth).foldl
          (fun zeros i => Function.update zeros (i + 1) (H (zeros i) (zeros i))) fun _ => z }
  else none

/-- The loop of `_computeLevel`; `fuel` bounds the number of bits. -/
def computeLevelLoop : ℕ → ℕ → ℕ → ℕ
  | 0, _, count => count
  | fuel + 1, index, count =>
    if index % 2 = 1 then computeLevelLoop fuel (index / 2) (count + 1) else count

/-- `_computeLevel`: the number of trailing ones of the leaf index. -/
def computeLevel (leafIndex : ℕ) : ℕ := computeLevelLoop (leafIndex + 1) leafIndex 0

def insertLeaf (H : α → α → α) (s : FrontierMerkle α) (leaf : α) : FrontierMerkle α :=
  let level := computeLevel s.nextIndex
  let right := (List.range level).foldl (fun right i => H (s.frontier i) right) leaf
  { s with
    frontier := Function.update s.frontier level right
    nextIndex := s.nextIndex + 1 }

/-- The loop of `root` from level `i` on, with `n` levels to go.  `none` is the revert
"Mistakes were made". -/
def rootLoop [DecidableEq α] (H : α → α → α) (s : FrontierMerkle α) : ℕ → ℕ → ℕ → α → Option α
  | 0, _, _, temp => some temp
  | n + 1, i, bits, temp =>
    if bits % 2 = 1 then
      if s.frontier i = temp then none
      else rootLoop H s n (i + 1) (bits / 2) (H (s.frontier i) temp)
    else rootLoop H s n (i + 1) (bits / 2) (H temp (s.zeros i))

def root [DecidableEq α] (H : α → α → α) (s : FrontierMerkle α) : Option α :=
  if s.nextIndex = 0 then some (s.zeros s.depth)
  else if s.nextIndex = s.size then some (s.frontier s.depth)
  else
    let index := s.nextIndex - 1
    let level := computeLevel index
    rootLoop H s (s.depth - level) level (index / 2 ^ level) (s.frontier level)

def insertLeaves (H : α → α → α) (s : FrontierMerkle α) (leaves : List α) : FrontierMerkle α :=
  leaves.foldl (insertLeaf H) s

/-! ### The level of an insertion -/

theorem computeLevelLoop_spec : ∀ {fuel index : ℕ}, index < fuel → ∀ count, ∃ l,
      computeLevelLoop fuel index count = count + l ∧
        (∀ i < l, index / 2 ^ i % 2 = 1) ∧ index / 2 ^ l % 2 = 0 := by
  intro fuel
  induction fuel with
  | zero => intro index hlt; omega
  | succ fuel ih =>
    intro index hlt count
    by_cases hodd : index % 2 = 1
    · obtain ⟨l, hl, hones, hzero⟩ := ih (by omega : index / 2 < fuel) (count + 1)
      refine ⟨l + 1, by rw [computeLevelLoop, if_pos hodd, hl]; omega, ?_, ?_⟩
      · intro i hi
        cases i with
        | zero => simpa using hodd
        | succ i => rw [← div_two_div_pow]; exact hones i (by omega)
      · rw [← div_two_div_pow]; exact hzero
    · exact ⟨0, by rw [computeLevelLoop, if_neg hodd]; rfl, by simp, by simpa using hodd⟩

variable {n l depth q h last : ℕ} {H : α → α → α} {z : α} {f : ℕ → α} {s : FrontierMerkle α}

theorem odd_of_lt_computeLevel {i : ℕ} (h : i < computeLevel n) : n / 2 ^ i % 2 = 1 := by
  obtain ⟨l, hl, hones, -⟩ := computeLevelLoop_spec (Nat.lt_succ_self n) 0
  rw [computeLevel, hl, Nat.zero_add] at h
  exact hones i h

theorem even_computeLevel (n : ℕ) : n / 2 ^ computeLevel n % 2 = 0 := by
  obtain ⟨l, hl, -, hzero⟩ := computeLevelLoop_spec (Nat.lt_succ_self n) 0
  rw [computeLevel, hl, Nat.zero_add]
  exact hzero

theorem succ_div_of_le (h : l ≤ computeLevel n) : (n + 1) / 2 ^ l = n / 2 ^ l + 1 := by
  induction l with
  | zero => simp
  | succ l ih =>
    have hodd := odd_of_lt_computeLevel (Nat.lt_of_succ_le h)
    rw [← div_pow_div_two, ← div_pow_div_two, ih (by omega)]
    omega

theorem succ_div_of_gt (h : computeLevel n < l) : (n + 1) / 2 ^ l = n / 2 ^ l := by
  obtain ⟨k, rfl⟩ := Nat.exists_eq_add_of_lt h
  clear h
  induction k with
  | zero =>
    have heven := even_computeLevel n
    rw [Nat.add_zero, ← div_pow_div_two, ← div_pow_div_two, succ_div_of_le le_rfl]
    omega
  | succ k ih =>
    have he : computeLevel n + (k + 1) + 1 = computeLevel n + k + 1 + 1 := by omega
    rw [he, ← div_pow_div_two (n + 1), ← div_pow_div_two n, ih]

theorem computeLevel_lt (h : n + 1 < 2 ^ depth) : computeLevel n < depth := by
  by_contra hge
  have hsucc := succ_div_of_le (n := n) (Nat.le_of_not_lt hge)
  rw [Nat.div_eq_of_lt h] at hsucc
  exact Nat.succ_ne_zero _ hsucc.symm

/-! ### The invariant -/

/-- The position of the last left node among the first `q` nodes of a level. -/
def lastLeft (q : ℕ) : ℕ := 2 * ((q - 1) / 2)

theorem pos_of_odd (h : q % 2 = 1) : 0 < q := by omega

theorem lastLeft_of_odd (h : q % 2 = 1) : lastLeft q = q - 1 := by
  rw [lastLeft]; omega

theorem lastLeft_succ_of_odd (h : q % 2 = 1) : lastLeft (q + 1) = lastLeft q := by
  rw [lastLeft, lastLeft]; omega

theorem lastLeft_succ_of_even (h : q % 2 = 0) : lastLeft (q + 1) = q := by
  rw [lastLeft]; omega

theorem node_of_odd (H : α → α → α) (f : ℕ → α) (hq : q % 2 = 1) :
    H (node H f h (q - 1)) (node H f h q) = node H f (h + 1) (q / 2) := by
  rw [node_succ, show 2 * (q / 2) = q - 1 by omega, show q - 1 + 1 = q by omega]

theorem node_of_even (H : α → α → α) (f : ℕ → α) (hq : ¬q % 2 = 1) :
    H (node H f h q) (node H f h (q + 1)) = node H f (h + 1) (q / 2) := by
  rw [node_succ, show 2 * (q / 2) = q by omega]

theorem zeros_loop (H : α → α → α) (z : α) (n : ℕ) : ∀ l ≤ n, (range n).foldl
      (fun zeros i => Function.update zeros (i + 1) (H (zeros i) (zeros i))) (fun _ => z) l =
        zeroNode H z l := by
  induction n with
  | zero => intro l hl; obtain rfl : l = 0 := by omega
            rfl
  | succ n ih =>
    intro l hl
    rw [range_succ, foldl_append, foldl_cons, foldl_nil]
    rcases Nat.lt_or_ge n l with h | h
    · obtain rfl : l = n + 1 := by omega
      rw [Function.update_self, ih n le_rfl, zeroNode_succ]
    · rw [Function.update_of_ne (by omega), ih l h]

/-- **The invariant** of a contract into which the first `nextIndex` leaves of `f` were inserted:
`frontier[l]` is the last completed left node of level `l`, if there is one. -/
structure Holds (H : α → α → α) (z : α) (f : ℕ → α) (s : FrontierMerkle α) : Prop where
  zeros_eq : ∀ l ≤ s.depth, s.zeros l = zeroNode H z l
  frontier_eq : ∀ l, 0 < s.nextIndex / 2 ^ l →
    s.frontier l = node H f l (lastLeft (s.nextIndex / 2 ^ l))

theorem holds_constructor (h : constructor H z depth = some s) :
    Holds H z f s ∧ s.depth = depth ∧ s.nextIndex = 0 := by
  simp only [constructor] at h
  split at h
  · obtain rfl := Option.some_inj.1 h
    exact ⟨⟨fun l hl => zeros_loop H z depth l hl, fun l hl => by simp at hl⟩, rfl, rfl⟩
  · cases h

theorem insertLeaf_right (hs : Holds H z f s) : ∀ l ≤ computeLevel s.nextIndex,
      (range l).foldl (fun right i => H (s.frontier i) right) (f s.nextIndex) =
        node H f l (s.nextIndex / 2 ^ l) := by
  intro l
  induction l with
  | zero => intro _; simp
  | succ l ih =>
    intro hl
    have hodd := odd_of_lt_computeLevel (Nat.lt_of_succ_le hl)
    have hq := hs.frontier_eq l (pos_of_odd hodd)
    rw [range_succ, foldl_append, ih (by omega), foldl_cons, foldl_nil, hq,
      lastLeft_of_odd hodd, node_of_odd H f hodd, div_pow_div_two]

theorem Holds.insertLeaf (hs : Holds H z f s) : Holds H z f (insertLeaf H s (f s.nextIndex)) := by
  refine ⟨hs.zeros_eq, fun l hl => ?_⟩
  simp only [FrontierMerkle.insertLeaf] at hl ⊢
  rw [insertLeaf_right hs _ le_rfl]
  rcases lt_trichotomy l (computeLevel s.nextIndex) with h | rfl | h
  · -- below the level written, the block just completed is a right one
    have hodd := odd_of_lt_computeLevel h
    rw [Function.update_of_ne h.ne, succ_div_of_le h.le, hs.frontier_eq l (pos_of_odd hodd),
      lastLeft_succ_of_odd hodd]
  · -- at the level written, it is a left one
    rw [Function.update_self, succ_div_of_le le_rfl,
      lastLeft_succ_of_even (even_computeLevel s.nextIndex)]
  · -- above it, no block was completed
    rw [succ_div_of_gt h] at hl ⊢
    rw [Function.update_of_ne h.ne', hs.frontier_eq l hl]

theorem holds_insertLeaves {leaves : List α} : ∀ {s : FrontierMerkle α}, Holds H z f s →
      (∀ i (hi : i < leaves.length), f (s.nextIndex + i) = leaves[i]) →
      Holds H z f (insertLeaves H s leaves) ∧ (insertLeaves H s leaves).depth = s.depth ∧
        (insertLeaves H s leaves).nextIndex = s.nextIndex + leaves.length := by
  induction leaves with
  | nil => intro s hs _; exact ⟨hs, rfl, rfl⟩
  | cons leaf leaves ih =>
    intro s hs hf
    have h₀ : f s.nextIndex = leaf := hf 0 (by simp)
    have hs' := hs.insertLeaf
    rw [h₀] at hs'
    obtain ⟨h₁, h₂, h₃⟩ := ih hs' fun i hi => by
      have := hf (i + 1) (by simpa using hi)
      rw [getElem_cons_succ] at this
      rw [← this]
      congr 1
      simp only [FrontierMerkle.insertLeaf]
      omega
    refine ⟨h₁, h₂, h₃.trans ?_⟩
    simp only [FrontierMerkle.insertLeaf, length_cons]
    omega

/-! ### The root -/

/-- The leaves of the perfect tree: those inserted, in order, and zeros after them. -/
def padded (z : α) (leaves : List α) : ℕ → α := fun i => leaves.getD i z

/-- At no level above that of the last insertion is the last block of leaves, when it is a right
one, hashed to the same node as the full block to its left. -/
def NoTwinBlocks (H : α → α → α) (depth last : ℕ) (f : ℕ → α) : Prop :=
  ∀ i < depth, computeLevel last < i → last / 2 ^ i % 2 = 1 →
    node H f i (last / 2 ^ i - 1) ≠ node H f i (last / 2 ^ i)

/-- **The loop of `root`.**  With the invariant, and zeros from `last + 1` on, the loop entered at
level `i` with the node above the last leaf returns the root, unless two blocks compared on the
way have equal nodes. -/
theorem rootLoop_eq [DecidableEq α] (hs : Holds H z f s) (hlast : s.nextIndex = last + 1)
    (hpad : ∀ j, last < j → f j = z) : ∀ n i, computeLevel last ≤ i → i + n = s.depth →
      ((∀ k < s.depth, i ≤ k → last / 2 ^ k % 2 = 1 →
          node H f k (last / 2 ^ k - 1) ≠ node H f k (last / 2 ^ k)) →
        rootLoop H s n i (last / 2 ^ i) (node H f i (last / 2 ^ i)) =
          some (node H f s.depth (last / 2 ^ s.depth))) ∧
      ((∃ k < s.depth, i ≤ k ∧ last / 2 ^ k % 2 = 1 ∧
          node H f k (last / 2 ^ k - 1) = node H f k (last / 2 ^ k)) →
        rootLoop H s n i (last / 2 ^ i) (node H f i (last / 2 ^ i)) = none) := by
  intro n
  induction n with
  | zero =>
    intro i _ hin
    obtain rfl : i = s.depth := by omega
    exact ⟨fun _ => rfl, fun ⟨k, hk, hik, _⟩ => by omega⟩
  | succ n ih =>
    intro i hi hin
    obtain ⟨ihok, ihrev⟩ := ih (i + 1) (by omega) (by omega)
    rw [← div_pow_div_two] at ihok ihrev
    simp only [rootLoop]
    by_cases hodd : last / 2 ^ i % 2 = 1
    · -- a right node: its left sibling is the frontier node of this level
      have hlt : computeLevel last < i := by
        refine lt_of_le_of_ne hi ?_
        rintro rfl
        rw [even_computeLevel] at hodd
        cases hodd
      have hq : s.nextIndex / 2 ^ i = last / 2 ^ i := by rw [hlast, succ_div_of_gt hlt]
      have hfr : s.frontier i = node H f i (last / 2 ^ i - 1) := by
        rw [hs.frontier_eq i (by rw [hq]; exact pos_of_odd hodd), hq, lastLeft_of_odd hodd]
      rw [if_pos hodd, hfr]
      by_cases htwin : node H f i (last / 2 ^ i - 1) = node H f i (last / 2 ^ i)
      · rw [if_pos htwin]
        exact ⟨fun h => absurd htwin (h i (by omega) le_rfl hodd), fun _ => rfl⟩
      · rw [if_neg htwin, node_of_odd H f hodd]
        refine ⟨fun h => ihok fun k hk hik => h k hk (by omega), ?_⟩
        rintro ⟨k, hk, hik, hk₁, hk₂⟩
        refine ihrev ⟨k, hk, ?_, hk₁, hk₂⟩
        rcases Nat.lt_or_ge i k with h | h
        · exact h
        · obtain rfl : k = i := by omega
          exact absurd hk₂ htwin
    · -- a left node: everything to its right is still zero
      have hz : s.zeros i = node H f i (last / 2 ^ i + 1) := by
        rw [hs.zeros_eq i (by omega), node_const]
        intro j hj _
        refine hpad j ?_
        have := (block_of_div last i).2
        omega
      rw [if_neg hodd, hz, node_of_even H f hodd]
      refine ⟨fun h => ihok fun k hk hik => h k hk (by omega), ?_⟩
      rintro ⟨k, hk, hik, hk₁, hk₂⟩
      refine ihrev ⟨k, hk, ?_, hk₁, hk₂⟩
      rcases Nat.lt_or_ge i k with h | h
      · exact h
      · obtain rfl : k = i := by omega
        exact absurd hk₁ hodd

instance [DecidableEq α] (H : α → α → α) (depth last : ℕ) (f : ℕ → α) :
    Decidable (NoTwinBlocks H depth last f) :=
  inferInstanceAs (Decidable (∀ i < depth, computeLevel last < i → last / 2 ^ i % 2 = 1 →
    node H f i (last / 2 ^ i - 1) ≠ node H f i (last / 2 ^ i)))

theorem noTwinBlocks_full (H : α → α → α) (f : ℕ → α) (h : last + 1 = 2 ^ depth) :
    NoTwinBlocks H depth last f := by
  intro i hi hlevel _ _
  have hsucc := succ_div_of_gt hlevel
  rw [h, Nat.pow_div hi.le (by decide)] at hsucc
  have hlt : last / 2 ^ i < 2 ^ (depth - i) := by
    rw [Nat.div_lt_iff_lt_mul (by positivity), ← pow_add, Nat.sub_add_cancel hi.le, ← h]
    exact Nat.lt_succ_self last
  exact absurd hsucc hlt.ne'

/-- **The root of the frontier tree.**  After at most `2 ^ depth` insertions, `root` does not
revert and returns the root of the perfect tree of the inserted leaves padded with zeros exactly
when that tree has no twin blocks. -/
theorem root_eq_node_iff [DecidableEq α] {H : α → α → α} {z : α} {depth : ℕ} {s : FrontierMerkle α}
    (hs : constructor H z depth = some s) {leaves : List α} (hlen : leaves.length ≤ 2 ^ depth) :
    root H (insertLeaves H s leaves) = some (node H (padded z leaves) depth 0) ↔
      NoTwinBlocks H depth (leaves.length - 1) (padded z leaves) := by
  have hpad : ∀ j, leaves.length ≤ j → padded z leaves j = z := fun j hj => by
    simp [padded, List.getD_eq_getElem?_getD, List.getElem?_eq_none hj]
  obtain ⟨hs₀, hd₀, hn₀⟩ := holds_constructor (f := padded z leaves) hs
  have hf : ∀ i (hi : i < leaves.length), padded z leaves (s.nextIndex + i) = leaves[i] :=
    fun i hi => by simp [padded, hn₀, List.getD_eq_getElem?_getD, hi]
  obtain ⟨hinv, hdepth, hnext⟩ := holds_insertLeaves hs₀ hf
  rw [hd₀] at hdepth
  rw [hn₀, Nat.zero_add] at hnext
  generalize insertLeaves H s leaves = t at hinv hdepth hnext ⊢
  simp only [root, hnext, size, hdepth]
  split_ifs with hzero hfull
  · -- nothing inserted
    rw [hinv.zeros_eq depth hdepth.ge, ← node_const (i := 0) fun j _ _ => hpad j (by omega)]
    refine iff_of_true rfl fun i _ _ hodd => ?_
    simp [hzero] at hodd
  · -- a full tree
    have hq := hinv.frontier_eq depth
    rw [hnext, hfull, Nat.div_self (by positivity)] at hq
    rw [hq one_pos, hfull]
    exact iff_of_true rfl (noTwinBlocks_full H _ (by omega))
  · have hlast : t.nextIndex = leaves.length - 1 + 1 := by omega
    have hlevel : computeLevel (leaves.length - 1) < depth := computeLevel_lt (by omega)
    have hlow : t.frontier (computeLevel (leaves.length - 1)) =
        node H (padded z leaves) (computeLevel (leaves.length - 1))
          ((leaves.length - 1) / 2 ^ computeLevel (leaves.length - 1)) := by
      rw [hinv.frontier_eq _ (by rw [hlast, succ_div_of_le le_rfl]; exact Nat.succ_pos _), hlast,
        succ_div_of_le le_rfl, lastLeft_succ_of_even (even_computeLevel _)]
    obtain ⟨hok, hrevert⟩ := rootLoop_eq hinv hlast (fun j hj => hpad j (by omega))
      (depth - computeLevel (leaves.length - 1)) _ le_rfl (by omega)
    rw [hdepth, Nat.div_eq_of_lt (by omega : leaves.length - 1 < 2 ^ depth)] at hok
    rw [hlow]
    constructor
    · intro hroot k hk hlt hodd htwin
      rw [hrevert ⟨k, by omega, hlt.le, hodd, htwin⟩] at hroot
      cases hroot
    · intro htwins
      refine hok fun k hk hle hodd => htwins k hk ?_ hodd
      refine lt_of_le_of_ne hle ?_
      rintro rfl
      rw [even_computeLevel] at hodd
      cases hodd

/-- The theorem at three leaves of a tree of depth two. -/
theorem root_eq_node_three : ∃ s, constructor Nat.pair 0 2 = some s ∧
      root Nat.pair (insertLeaves Nat.pair s [1, 2, 3]) =
        some (node Nat.pair (padded 0 [1, 2, 3]) 2 0) :=
  ⟨_, rfl, (root_eq_node_iff rfl (by decide : [1, 2, 3].length ≤ 2 ^ 2)).2 (by decide)⟩

/-- **The guard of `root` is reachable**, whatever the hash: with the zero leaf inserted three
times into a tree of depth two, the right half `[0]` padded with zeros is the left half `[0, 0]`,
and `root` reverts. -/
theorem not_root_eq_node : ¬∃ (α : Type) (_ : DecidableEq α) (H : α → α → α) (z : α),
      ∀ (depth : ℕ) (s : FrontierMerkle α), constructor H z depth = some s →
        ∀ leaves : List α, leaves.length ≤ 2 ^ depth →
          root H (insertLeaves H s leaves) = some (node H (padded z leaves) depth 0) := by
  rintro ⟨α, _, H, z, hroot⟩
  have h := hroot 2 _ rfl [z, z, z] (by simp)
  have hlevel : computeLevel 0 = 0 ∧ computeLevel 1 = 1 ∧ computeLevel 2 = 0 := by decide
  simp [root, size, insertLeaves, insertLeaf, rootLoop, hlevel, List.range_succ] at h

end FrontierMerkle
