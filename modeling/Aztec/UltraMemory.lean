/-
**Memory of the Ultra circuit builder: variables, constants and records.**

What ROM and RAM arrays share.  A circuit has variables, with the values that they are given when
the circuit is built, and constants, which are variables fixed by a gate.  An access to an array is
a gate over three variables and a fourth, its record, whose value is known only when the prover has
`eta`.
-/

import Aztec.ScalarField
import Aztec.UltraGates

open List Option

namespace UltraMemory

open UltraGates

/-! ### The field -/

variable {n : ℕ} {x y : FF} {β : Type} {l' : List β} {indices : List ℕ}

theorem natCast_ne_zero (hpos : 0 < n) (hlt : n < 2 ^ 253) : (n : FF) ≠ 0 := by
  intro h
  rw [ZMod.natCast_eq_zero_iff] at h
  exact absurd (Nat.le_of_dvd hpos h) (FF.lt_fieldModulus hlt).not_ge

theorem char_ne_two : (2 : FF) ≠ 0 := natCast_ne_zero two_pos (by norm_num)

theorem char_ne_three : (3 : FF) ≠ 0 := natCast_ne_zero three_pos (by norm_num)

theorem val_natCast (hlt : n < 2 ^ 253) : (n : FF).val = n :=
  ZMod.val_cast_of_lt (FF.lt_fieldModulus hlt)

theorem natCast_inj {m : ℕ} (hm : m < 2 ^ 253) (hn : n < 2 ^ 253) (h : (m : FF) = n) : m = n := by
  rw [← val_natCast hm, ← val_natCast hn, h]

theorem eq_zero_or_one (h : x ^ 2 = x) : x = 0 ∨ x = 1 := by
  have hfactors : x * (x - 1) = 0 := by linear_combination h
  exact (mul_eq_zero.1 hfactors).imp id sub_eq_zero.1

theorem val_add_one (h : x ≠ -1) : (x + 1).val = x.val + 1 := by
  have hlt : x.val + 1 < Kernel.fieldModulus := by
    refine lt_of_le_of_ne (ZMod.val_lt x) fun heq => h ?_
    have hcast : ((x.val + 1 : ℕ) : FF) = 0 := by rw [heq, ZMod.natCast_self]
    rw [Nat.cast_add, Nat.cast_one, ZMod.natCast_rightInverse x] at hcast
    exact eq_neg_of_add_eq_zero_left hcast
  have hval := ZMod.val_cast_of_lt hlt
  rwa [Nat.cast_add, Nat.cast_one, ZMod.natCast_rightInverse x] at hval

theorem ne_neg_one (h : x.val < 2 ^ 252) : x ≠ -1 := by
  intro heq
  refine natCast_ne_zero (Nat.succ_pos x.val) (by omega) ?_
  rw [Nat.cast_succ, ZMod.natCast_rightInverse x, heq, neg_add_cancel]

def Step (x y : FF) : Prop := (y - x) ^ 2 = y - x

theorem Step.cases (h : Step x y) : y = x ∨ y = x + 1 :=
  (eq_zero_or_one h).imp sub_eq_zero.1 fun hone => by linear_combination hone

theorem Step.val_le (h : Step x y) (hne : x ≠ -1) : x.val ≤ y.val := by
  rcases h.cases with rfl | rfl
  · exact le_rfl
  · rw [val_add_one hne]
    exact Nat.le_succ _

theorem indices_of_steps {indices : List FF} {last : FF} (h : indices.IsChain Step)
    (hlast : indices.getLast? = some last) (hne : ∀ x ∈ indices, x ≠ -1) :
    ∀ x ∈ indices, x.val ≤ last.val := by
  induction indices with
  | nil => exact fun x hx => absurd hx not_mem_nil
  | cons y indices ih =>
    cases indices with
    | nil =>
      obtain rfl := some_inj.1 hlast
      exact fun x hx => (mem_singleton.1 hx) ▸ le_rfl
    | cons z indices =>
      obtain ⟨hstep, htail⟩ := isChain_cons_cons.1 h
      have hle := ih htail (by rwa [List.getLast?_cons_cons] at hlast) fun x hx =>
        hne x (mem_cons_of_mem _ hx)
      intro x hx
      rcases mem_cons.1 hx with rfl | hx
      · exact (hstep.val_le (hne x mem_cons_self)).trans (hle z mem_cons_self)
      · exact hle x hx

/-! ### Lists -/

theorem map_eq_of_forall₂ {α γ : Type} {R : α → β → Prop} {f : β → γ} {g : α → γ} {l : List α}
    (h : List.Forall₂ R l l') (heq : ∀ a, ∀ b ∈ l', R a b → f b = g a) : l'.map f = l.map g := by
  induction h with
  | nil => rfl
  | cons hab _ ih =>
    rw [map_cons, map_cons, heq _ _ mem_cons_self hab,
      ih fun a b hb => heq a b (mem_cons_of_mem _ hb)]

theorem isChain_of_forall₂ {α : Type} {R : α → β → Prop} {P : α → α → Prop} {Q : β → β → Prop}
    {l : List α} (h : List.Forall₂ R l l') (hchain : l.IsChain P)
    (hPQ : ∀ a a' b b', R a b → R a' b' → P a a' → Q b b') : l'.IsChain Q := by
  induction h with
  | nil => exact .nil
  | cons hab hrest ih =>
    cases hrest with
    | nil => exact .singleton _
    | cons hab' _ =>
      obtain ⟨hP, htail⟩ := isChain_cons_cons.1 hchain
      exact .cons_cons (hPQ _ _ _ _ hab hab' hP) (ih htail)

theorem foldlM_keeps {α σ : Type} {f : σ → α → Option σ} {P : σ → Prop} {l : List α}
    (hstep : ∀ s a t, P s → f s a = some t → P t) {s t : σ} (hs : P s)
    (h : l.foldlM f s = some t) : P t := by
  induction l generalizing s with
  | nil => exact some_inj.1 h ▸ hs
  | cons a l ih =>
    rw [foldlM_cons] at h
    obtain ⟨u, hu, ht⟩ := bind_eq_some_iff.1 h
    exact ih (hstep s a u hs hu) ht

/-! ### Cells -/

section Cells

variable {α σ : Type}

theorem countP_set_le (state : List (Option α)) (i : ℕ) (x : α) :
    (state.set i (some x)).countP isSome ≤ state.countP isSome + 1 := by
  induction state generalizing i with
  | nil => simp
  | cons cell state ih =>
    cases i with
    | zero =>
      rw [set_cons_zero, countP_cons, countP_cons]
      simp only [isSome_some, if_true]
      omega
    | succ i =>
      rw [set_cons_succ, countP_cons, countP_cons]
      have := ih i
      omega

variable {state : List (Option α)}

theorem getElem?_set_cases {i j : ℕ} {x y : α} (h : (state.set i (some x))[j]? = some (some y)) :
    state[j]? = some (some y) ∨ j = i ∧ y = x := by
  rw [List.getElem?_set] at h
  split at h
  · next heq =>
    split at h
    · exact .inr ⟨heq.symm, (some_inj.1 (some_inj.1 h)).symm⟩
    · exact absurd h (some_ne_none _).symm
  · exact .inl h

theorem countP_of_cells (h : ∀ i < state.length, state[i]? ≠ some none) :
    state.length ≤ state.countP isSome := by
  refine (countP_eq_length.2 fun cell hcell => ?_).ge
  obtain ⟨i, hi, rfl⟩ := mem_iff_getElem.1 hcell
  have hne := h i hi
  rw [List.getElem?_eq_getElem hi, Ne, some_inj] at hne
  exact isSome_iff_ne_none.2 hne

theorem fill_below [DecidableEq α] {set : σ → ℕ → Option σ} (state : σ → List (Option α)) {n : ℕ}
    (hset : ∀ s i t, set s i = some t → ∃ x, state t = (state s).set i (some x)) {u t : σ}
    (hfill : (List.range n).foldlM (fun s i =>
      if (state s)[i]? = some none then set s i else some s) u = some t) :
    ∀ i < n, (state t)[i]? ≠ some none := by
  induction n generalizing t with
  | zero => exact fun i hi => absurd hi (Nat.not_lt_zero i)
  | succ n ih =>
    rw [range_succ, foldlM_append] at hfill
    obtain ⟨m, hm, hlast⟩ := bind_eq_some_iff.1 hfill
    rw [foldlM_cons] at hlast
    obtain ⟨t', ht', hnil⟩ := bind_eq_some_iff.1 hlast
    obtain rfl := some_inj.1 hnil
    intro i hi
    split at ht'
    · obtain ⟨x, hx⟩ := hset _ _ _ ht'
      rw [hx, List.getElem?_set]
      split
      · simp
      · next hne => exact ih hm i (by omega)
    · next hsome =>
      obtain rfl := some_inj.1 ht'
      rcases Nat.lt_succ_iff_lt_or_eq.1 hi with hi | rfl
      · exact ih hm i hi
      · exact hsome

end Cells

/-! ### Sorted indices -/

section

variable (hsorted : indices.Pairwise (· ≤ ·)) (hall : ∀ i < n, i ∈ indices)
  (hlt : ∀ i ∈ indices, i < n)
include hsorted hall hlt

theorem isChain_succ : indices.IsChain fun i j => j = i ∨ j = i + 1 := by
  rw [isChain_iff_forall_rel_of_append_cons_cons]
  intro i j left right heq
  subst heq
  obtain ⟨-, hright, hleft⟩ := pairwise_append.1 hsorted
  obtain ⟨hi, hright⟩ := pairwise_cons.1 hright
  have hij : i ≤ j := hi j mem_cons_self
  by_contra hne
  have hjn := hlt j (by simp)
  have hmem := hall (i + 1) (by omega)
  simp only [mem_append, mem_cons] at hmem
  rcases hmem with hmem | hmem | hmem | hmem
  · have := hleft _ hmem i mem_cons_self
    omega
  · omega
  · omega
  · have := rel_of_pairwise_cons hright hmem
    omega

theorem getLast_of_sorted : ∀ last ∈ indices.getLast?, last = n - 1 := by
  intro last hlast
  obtain ⟨left, rfl⟩ := List.getLast?_eq_some_iff.1 hlast
  have hlastlt := hlt last (by simp)
  have hmem := hall (n - 1) (by omega)
  rcases mem_append.1 hmem with hmem | hmem
  · have := (pairwise_append.1 hsorted).2.2 _ hmem last (mem_singleton_self last)
    omega
  · exact (mem_singleton.1 hmem).symm

end

/-- Records whose places are sorted and cover all below `n` go up one by one. -/
theorem isChain_of_sorted {R : Type} {f : R → ℕ} {l : List R} (hsorted : (l.map f).Pairwise (· ≤ ·))
    (hall : ∀ i < n, ∃ r ∈ l, f r = i) (hlt : ∀ r ∈ l, f r < n) :
    (l.IsChain fun a b => f b = f a ∨ f b = f a + 1) ∧ ∀ last ∈ l.getLast?, f last = n - 1 := by
  have hall' : ∀ i < n, i ∈ l.map f := fun i hi => mem_map.2 (hall i hi)
  have hlt' : ∀ i ∈ l.map f, i < n := List.forall_mem_map.2 hlt
  refine ⟨?_, fun last hlast => getLast_of_sorted hsorted hall' hlt' _ ?_⟩
  · have hsteps := isChain_succ hsorted hall' hlt'
    rwa [isChain_map] at hsteps
  · rw [List.getLast?_map, mem_def.1 hlast]
    rfl

/-! ### The builder -/

/-- The values of the variables (`variables`), `constant_variable_indices`, and the gates emitted
so far. -/
structure Builder where
  values : List FF
  constants : List (FF × ℕ)
  gates : List (Gate FF)

def zeroIdx : ℕ := 0

namespace Builder

def getVariable (s : Builder) (i : ℕ) : FF := s.values.getD i 0

def addVariable (s : Builder) (value : FF) : Builder × ℕ :=
  ({ s with values := s.values ++ [value] }, s.values.length)

def addGate (s : Builder) (g : Gate FF) : Builder := { s with gates := s.gates ++ [g] }

def putConstantVariable (s : Builder) (value : FF) : Builder × ℕ :=
  match s.constants.lookup value with
  | some i => (s, i)
  | none =>
    let i := s.values.length
    ({ values := s.values ++ [value], constants := (value, i) :: s.constants,
       gates := s.gates ++ [fixWitness zeroIdx i value] }, i)

def new : Builder := (putConstantVariable ⟨[], [], []⟩ 0).1

end Builder

/-- What calls do to a circuit: they add variables and gates. -/
structure Extends (s s' : Builder) : Prop where
  values : ∃ rest, s'.values = s.values ++ rest
  constants : ∀ c ∈ s.constants, c ∈ s'.constants
  gates : ∃ rest, s'.gates = s.gates ++ rest

/-- The constants are variables with the right values, and gates fix them. -/
structure Builder.Valid (s : Builder) : Prop where
  zero : (0, zeroIdx) ∈ s.constants
  lt : ∀ c ∈ s.constants, c.2 < s.values.length
  value : ∀ c ∈ s.constants, s.getVariable c.2 = c.1
  gate : ∀ c ∈ s.constants, fixWitness zeroIdx c.2 c.1 ∈ s.gates

section Extends

variable {s s' s'' : Builder}

theorem Extends.refl (s : Builder) : Extends s s :=
  ⟨⟨[], by simp⟩, fun _ h => h, ⟨[], by simp⟩⟩

theorem Extends.trans (h : Extends s s') (h' : Extends s' s'') : Extends s s'' := by
  obtain ⟨values, hvalues⟩ := h.values
  obtain ⟨values', hvalues'⟩ := h'.values
  obtain ⟨gates, hgates⟩ := h.gates
  obtain ⟨gates', hgates'⟩ := h'.gates
  refine ⟨⟨values ++ values', ?_⟩, fun c hc => h'.constants c (h.constants c hc),
    ⟨gates ++ gates', ?_⟩⟩
  · rw [hvalues', hvalues, append_assoc]
  · rw [hgates', hgates, append_assoc]

theorem Extends.length_le (h : Extends s s') : s.values.length ≤ s'.values.length := by
  obtain ⟨rest, hrest⟩ := h.values
  rw [hrest, length_append]
  exact Nat.le_add_right _ _

theorem Extends.getVariable (h : Extends s s') {i : ℕ} (hi : i < s.values.length) :
    s'.getVariable i = s.getVariable i := by
  obtain ⟨rest, hrest⟩ := h.values
  rw [Builder.getVariable, Builder.getVariable, hrest, getD_eq_getElem?_getD,
    List.getElem?_append_left hi, ← getD_eq_getElem?_getD]

theorem Extends.mem_gates (h : Extends s s') {g : Gate FF} (hg : g ∈ s.gates) : g ∈ s'.gates := by
  obtain ⟨rest, hrest⟩ := h.gates
  rw [hrest]
  exact mem_append_left _ hg

theorem extends_addVariable (value : FF) : Extends s (s.addVariable value).1 :=
  ⟨⟨[value], rfl⟩, fun _ h => h, ⟨[], (append_nil _).symm⟩⟩

theorem extends_addGate (g : Gate FF) : Extends s (s.addGate g) :=
  ⟨⟨[], (append_nil _).symm⟩, fun _ h => h, ⟨[g], rfl⟩⟩

theorem extends_putConstantVariable (value : FF) : Extends s (s.putConstantVariable value).1 := by
  rw [Builder.putConstantVariable]
  split
  · exact .refl s
  · exact ⟨⟨[value], rfl⟩, fun _ h => mem_cons_of_mem _ h, ⟨[_], rfl⟩⟩

@[simp] theorem length_addVariable (value : FF) :
    (s.addVariable value).1.values.length = s.values.length + 1 := by
  simp [Builder.addVariable]

theorem getVariable_addVariable (value : FF) :
    (s.addVariable value).1.getVariable (s.addVariable value).2 = value := by
  simp [Builder.addVariable, Builder.getVariable]

theorem Extends.getVariable_add {value : FF} (h : Extends (s.addVariable value).1 s') :
    s'.getVariable (s.addVariable value).2 = value := by
  have hlt : (s.addVariable value).2 < (s.addVariable value).1.values.length :=
    (Nat.lt_succ_self _).trans_eq (length_addVariable value).symm
  rw [h.getVariable hlt, getVariable_addVariable]

theorem Builder.Valid.extends (h : s.Valid) (hextends : Extends s s')
    (hconstants : s'.constants = s.constants) : s'.Valid where
  zero := hconstants ▸ h.zero
  lt c hc := (h.lt c (hconstants ▸ hc)).trans_le hextends.length_le
  value c hc :=
    (hextends.getVariable (h.lt c (hconstants ▸ hc))).trans (h.value c (hconstants ▸ hc))
  gate c hc := hextends.mem_gates (h.gate c (hconstants ▸ hc))

theorem lookup_mem {constants : List (FF × ℕ)} {value : FF} {i : ℕ}
    (h : constants.lookup value = some i) : (value, i) ∈ constants := by
  induction constants with
  | nil => simp at h
  | cons c constants ih =>
    rw [lookup_cons] at h
    split at h
    · next heq =>
      obtain rfl := some_inj.1 h
      rw [LawfulBEq.eq_of_beq heq]
      exact mem_cons_self
    · exact mem_cons_of_mem _ (ih h)

theorem Builder.Valid.putConstantVariable (h : s.Valid) (value : FF) :
    (s.putConstantVariable value).1.Valid ∧
      (value, (s.putConstantVariable value).2) ∈ (s.putConstantVariable value).1.constants := by
  have hextends := extends_putConstantVariable (s := s) value
  rw [Builder.putConstantVariable] at hextends ⊢
  split at hextends
  · next i hlookup => exact ⟨h, lookup_mem hlookup⟩
  · refine ⟨⟨mem_cons_of_mem _ h.zero, ?_, ?_, ?_⟩, mem_cons_self⟩
    · rintro c (_ | ⟨_, hc⟩)
      · simp
      · exact (h.lt c hc).trans_le hextends.length_le
    · rintro c (_ | ⟨_, hc⟩)
      · simp [Builder.getVariable]
      · exact (hextends.getVariable (h.lt c hc)).trans (h.value c hc)
    · rintro c (_ | ⟨_, hc⟩)
      · simp
      · exact hextends.mem_gates (h.gate c hc)

theorem mem_putConstantVariable (value : FF) : (∀ c ∈ (s.putConstantVariable value).1.constants,
      c ∈ s.constants ∨ s.values.length ≤ c.2) ∧
    ∀ g ∈ (s.putConstantVariable value).1.gates, g ∈ s.gates ∨
      ∃ c ∈ (s.putConstantVariable value).1.constants, g = fixWitness zeroIdx c.2 c.1 := by
  rw [Builder.putConstantVariable]
  split
  · exact ⟨fun _ hc => .inl hc, fun _ hg => .inl hg⟩
  · refine ⟨fun c hc => ?_, fun g hg => ?_⟩
    · rcases mem_cons.1 hc with rfl | hc
      · exact .inr le_rfl
      · exact .inl hc
    · rcases mem_append.1 hg with hg | hg
      · exact .inl hg
      · exact .inr ⟨_, mem_cons_self, mem_singleton.1 hg⟩

theorem valid_new : Builder.new.Valid where
  zero := mem_cons_self
  lt c hc := by
    rw [mem_singleton.1 hc]
    exact Nat.one_pos
  value c hc := by rw [mem_singleton.1 hc]; rfl
  gate c hc := by
    rw [mem_singleton.1 hc]
    exact mem_cons_self

theorem Builder.Valid.zero_eq (h : s.Valid) : s.getVariable zeroIdx = 0 := h.value _ h.zero

variable {alpha eta : FF} {v : ℕ → FF}

def EachHolds (alpha eta : FF) (v : ℕ → FF) (gates : List (Gate FF)) : Prop :=
  ∀ g ∈ gates, ∃ shifted, Holds alpha eta g (wiresOf v g) shifted

theorem eachHolds_left {gates gates' : List (Gate FF)}
    (h : Satisfied alpha eta v (gates ++ gates')) : EachHolds alpha eta v gates :=
  fun _ hg => h.exists_holds (mem_append_left _ hg)

theorem Builder.Valid.assignment_eq (h : s.Valid) (hgates : EachHolds alpha eta v s.gates)
    {c : FF × ℕ} (hc : c ∈ s.constants) : v c.2 = c.1 := by
  obtain ⟨shifted, hholds⟩ := hgates _ (h.gate c hc)
  have hsum := holds_bigAdd.1 hholds
  simp only [wiresOf, fixWitness, createBigAddGate] at hsum
  linear_combination hsum

end Extends

/-! ### Records -/

/-- The variables of a memory record: three values and the record itself, and the flag of writes. -/
structure Row where
  wire1 : ℕ
  wire2 : ℕ
  wire3 : ℕ
  recordWitness : ℕ
  flag : FF

def encode (eta x y z flag : FF) : FF := ((z * eta + y) * eta + x) * eta + flag

/-- **The values of an honest prover**: those of the builder, and the records. -/
def honest (eta : FF) (value : ℕ → FF) (rows : List Row) (i : ℕ) : FF :=
  match rows.find? fun row => row.recordWitness == i with
  | some row => encode eta (value row.wire1) (value row.wire2) (value row.wire3) row.flag
  | none => value i

section Honest

variable {eta : FF} {value : ℕ → FF} {rows : List Row}

theorem honest_of_ne {i : ℕ} (h : ∀ row ∈ rows, row.recordWitness ≠ i) :
    honest eta value rows i = value i := by
  have hnone : rows.find? (fun row => row.recordWitness == i) = none :=
    List.find?_eq_none.2 fun row hrow => by simpa using h row hrow
  rw [honest, hnone]

theorem honest_record (hdistinct : (rows.map Row.recordWitness).Nodup) {row : Row}
    (hrow : row ∈ rows) : honest eta value rows row.recordWitness =
      encode eta (value row.wire1) (value row.wire2) (value row.wire3) row.flag := by
  have hfind : rows.find? (fun other => other.recordWitness == row.recordWitness) = some row := by
    have hsome : (rows.find? fun other => other.recordWitness == row.recordWitness).isSome :=
      List.find?_isSome.2 ⟨row, hrow, beq_self_eq_true row.recordWitness⟩
    obtain ⟨found, hfound⟩ := isSome_iff_exists.1 hsome
    rw [hfound, inj_on_of_nodup_map hdistinct (List.mem_of_find?_eq_some hfound) hrow
      (by simpa using List.find?_some hfound)]
  rw [honest, hfind]

end Honest

end UltraMemory
