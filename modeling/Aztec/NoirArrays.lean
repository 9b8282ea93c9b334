/-
**Arrays, bounded vectors and assertions of the Noir circuits.**

The circuits compute with arrays of fixed length, in which unused places hold an *empty* value,
and with `BoundedVec`, an array together with the number of places in use.  A failed assertion
makes the whole circuit fail; it is an error carrying the text of the assertion.

Field elements are natural numbers, their canonical representatives, and so are the unsigned
integers.
-/

import Aztec.Failing

namespace Noir

open Failing

/-- An element of the native field, by its canonical representative. -/
abbrev Field := ℕ

/-! ### Failing computations -/

/-- A circuit either computes its outputs or fails with the text of an assertion. -/
abbrev Circuit := Except String

def assert (c : Bool) (msg : String) : Circuit Unit :=
  if c then .ok () else .error msg

@[simp] theorem assert_eq_ok {c : Bool} {msg : String} {u : Unit} :
    assert c msg = .ok u ↔ c = true := by
  cases c <;> simp [assert]

/-- Reading `a[i]`; an index out of range makes the circuit fail. -/
def get {T : Type} {n : ℕ} (a : Vector T n) (i : ℕ) : Circuit T :=
  match a[i]? with
  | some t => .ok t
  | none => .error "Index out of bounds"

variable {n i k : ℕ}

variable {T : Type}

@[simp] theorem get_eq_ok {a : Vector T n} {t : T} : Noir.get a i = .ok t ↔ a[i]? = some t := by
  unfold Noir.get
  split <;> simp_all

/-- Writing `a[i] = t`; an index out of range makes the circuit fail. -/
def set {T : Type} {n : ℕ} (a : Vector T n) (i : ℕ) (t : T) : Circuit (Vector T n) :=
  if h : i < n then .ok (a.set i t h) else .error "Index out of bounds"

theorem set_eq_ok {a b : Vector T n} {t : T} :
    Noir.set a i t = .ok b ↔ ∃ h : i < n, a.set i t h = b := by
  unfold Noir.set
  split <;> simp_all

/-- The unsigned integers of 32 bits: a sum that does not fit makes the circuit fail. -/
def addU32 (a b : ℕ) : Circuit ℕ :=
  if a + b < 2 ^ 32 then .ok (a + b) else .error "attempt to add with overflow"

theorem addU32_eq_ok {a b c : ℕ} : addU32 a b = .ok c ↔ a + b < 2 ^ 32 ∧ a + b = c := by
  unfold addU32
  split <;> simp_all

/-! ### Empty values -/

/-- The trait `Empty`. -/
class Empty (T : Type) where
  empty : T

instance : Empty Field := ⟨0⟩

/-- The trait function `is_empty`: equality with the empty value. -/
def isEmpty {T : Type} [DecidableEq T] [Empty T] (item : T) : Bool := item = Empty.empty

@[simp] theorem isEmpty_iff [DecidableEq T] [Empty T] {item : T} :
    isEmpty item = true ↔ item = Empty.empty := by
  simp [isEmpty]

/-- `array_length`: the number of entries before the first empty one. -/
def arrayLength {T : Type} [DecidableEq T] [Empty T] {n : ℕ} (array : Vector T n) : ℕ :=
  (array.toList.foldl
    (fun (s : ℕ × Bool) elem =>
      let done := s.2 || isEmpty elem
      (if !done then s.1 + 1 else s.1, done))
    (0, false)).1

section

variable [DecidableEq T] [Empty T]

theorem arrayLength_foldl (l : List T) : ∀ length done, (l.foldl (fun (s : ℕ × Bool) elem =>
          let done := s.2 || isEmpty elem
          (if !done then s.1 + 1 else s.1, done)) (length, done)).1 =
      length + if done then 0 else l.findIdx isEmpty := by
  induction l with
  | nil => intro length done; simp
  | cons e l ih =>
    intro length done
    rw [List.foldl_cons, ih, List.findIdx_cons]
    cases done with
    | true => simp
    | false =>
      cases he : isEmpty e with
      | true => simp
      | false => simp; omega

theorem arrayLength_eq (array : Vector T n) : arrayLength array = array.toList.findIdx isEmpty := by
  rw [arrayLength, arrayLength_foldl, if_neg Bool.false_ne_true, Nat.zero_add]

theorem ne_empty_of_lt_arrayLength {array : Vector T n}
    (hi : i < n) (h : i < arrayLength array) : array[i] ≠ Empty.empty := by
  rw [arrayLength_eq] at h
  simpa [isEmpty] using List.not_of_lt_findIdx h

theorem eq_empty_arrayLength {array : Vector T n} (hi : i < n)
    (h : i = arrayLength array) : array[i] = Empty.empty := by
  rw [arrayLength_eq] at h
  have hlt : array.toList.findIdx isEmpty < array.toList.length := by simpa [← h] using hi
  have hempty := List.findIdx_getElem (w := hlt)
  simp only [isEmpty_iff, ← h, Vector.getElem_toList] at hempty
  exact hempty

theorem arrayLength_le (array : Vector T n) : arrayLength array ≤ n := by
  have : array.toList.findIdx isEmpty ≤ array.toList.length := List.findIdx_le_length
  rw [arrayLength_eq]
  simpa using this

end

theorem first_lt_sixtyFour : 0 < 64 := by decide

/-- The empty entries of an array come after all others, as `validate_array` asks for. -/
def EmptyLast {T : Type} [Empty T] {n : ℕ} (array : Vector T n) : Prop :=
  ∀ i j : Fin n, i < j → getElem array i i.isLt = Empty.empty →
    getElem array j j.isLt = Empty.empty

instance {T : Type} [DecidableEq T] [Empty T] {n : ℕ} (array : Vector T n) :
    Decidable (EmptyLast array) :=
  inferInstanceAs (Decidable (∀ i j : Fin n, i < j → getElem array i i.isLt = Empty.empty →
    getElem array j j.isLt = Empty.empty))

section

variable [DecidableEq T] [Empty T]

theorem eq_empty_of_arrayLength_le {array : Vector T n}
    (hlast : EmptyLast array) (hi : i < n) (h : arrayLength array ≤ i) :
    array[i] = Empty.empty := by
  rcases Nat.lt_or_ge (arrayLength array) i with hlt | hge
  · exact hlast ⟨_, hlt.trans hi⟩ ⟨i, hi⟩ hlt (eq_empty_arrayLength (hlt.trans hi) rfl)
  · exact eq_empty_arrayLength hi (by omega)

section

variable {items : Vector T n} (hk : k ≤ n) (hne : ∀ i (hi : i < n), i < k → items[i] ≠ Empty.empty)
include hk hne

theorem countP_take : (items.toList.take k).countP (fun item => !isEmpty item) = k := by
  rw [List.countP_eq_length.2, List.length_take, Vector.length_toList, Nat.min_eq_left hk]
  intro item hitem
  obtain ⟨i, hi, rfl⟩ := List.getElem_of_mem hitem
  rw [List.length_take, Vector.length_toList] at hi
  simpa [isEmpty] using hne i (by omega) (by omega)

theorem countP_of_boundary (he : ∀ i (hi : i < n), k ≤ i → items[i] = Empty.empty) :
    items.toList.countP (fun item => !isEmpty item) = k := by
  have hdrop : (items.toList.drop k).countP (fun item => !isEmpty item) = 0 := by
    rw [List.countP_eq_zero]
    intro item hitem
    obtain ⟨i, hi, rfl⟩ := List.getElem_of_mem hitem
    rw [List.length_drop, Vector.length_toList] at hi
    simpa [isEmpty] using he (k + i) (by omega) (by omega)
  rw [← List.take_append_drop k items.toList, List.countP_append, countP_take hk hne, hdrop,
    Nat.add_zero]

theorem toList_eq_of_countP (hcount : items.toList.countP (fun item => !isEmpty item) = k) :
    items.toList = items.toList.take k ++ List.replicate (n - k) Empty.empty := by
  have hdrop : (items.toList.drop k).countP (fun item => !isEmpty item) = 0 := by
    rw [← List.take_append_drop k items.toList, List.countP_append, countP_take hk hne] at hcount
    omega
  have hrep : items.toList.drop k = List.replicate (n - k) Empty.empty := by
    refine List.eq_replicate_iff.2 ⟨by simp, fun item hitem => ?_⟩
    simpa [isEmpty] using List.countP_eq_zero.1 hdrop item hitem
  calc items.toList = items.toList.take k ++ items.toList.drop k := (List.take_append_drop _ _).symm
    _ = items.toList.take k ++ List.replicate (n - k) Empty.empty := by rw [hrep]

end

theorem toList_eq_of_emptyLast {array : Vector T n}
    (h : EmptyLast array) : array.toList = array.toList.take (arrayLength array) ++
        List.replicate (n - arrayLength array) Empty.empty ∧
      (array.toList.take (arrayLength array)).length = arrayLength array ∧
      ∀ item ∈ array.toList.take (arrayLength array), item ≠ Empty.empty := by
  have hle := arrayLength_le array
  have hne : ∀ i (hi : i < n), i < arrayLength array → array[i] ≠ Empty.empty :=
    fun i hi hlt => ne_empty_of_lt_arrayLength hi hlt
  have hlength : (array.toList.take (arrayLength array)).length = arrayLength array := by
    simpa using hle
  refine ⟨toList_eq_of_countP hle hne (countP_of_boundary hle hne fun i hi hge =>
    eq_empty_of_arrayLength_le h hi hge), hlength, ?_⟩
  intro item hitem
  obtain ⟨i, hi, rfl⟩ := List.getElem_of_mem hitem
  rw [hlength] at hi
  simpa using hne i (hi.trans_le hle) hi

end

/-! ### Bounded vectors -/

structure BoundedVec (T : Type) (maxLen : ℕ) where
  storage : Vector T maxLen
  len : ℕ
  emptyValue : T

namespace BoundedVec

variable {T : Type} {maxLen : ℕ}

def new (initialValue : T) : BoundedVec T maxLen :=
  { storage := Vector.replicate maxLen initialValue, len := 0, emptyValue := initialValue }

def push (v : BoundedVec T maxLen) (elem : T) : Circuit (BoundedVec T maxLen) := do
  assert (v.len < maxLen) "push out of bounds"
  return { v with storage := v.storage.setIfInBounds v.len elem, len := v.len + 1 }

/-- `pop`, which also writes the empty value over the place it frees. -/
def pop (v : BoundedVec T maxLen) : Circuit (T × BoundedVec T maxLen) := do
  assert (0 < v.len) ""
  let len := v.len - 1
  let elem ← get v.storage len
  return (elem, { v with storage := v.storage.setIfInBounds len v.emptyValue, len := len })

/-- `extend_from_bounded_vec`: copies the entries of `w` up to its length. -/
def extendFromBoundedVec {len : ℕ} (v : BoundedVec T maxLen) (w : BoundedVec T len) :
    Circuit (BoundedVec T maxLen) := do
  let newLen := v.len + w.len
  assert (newLen ≤ maxLen) "extend_from_bounded_vec out of bounds"
  let storage ← (List.range len).foldlM
    (fun storage i =>
      if i < w.len then do
        let elem ← get w.storage i
        return storage.setIfInBounds (v.len + i) elem
      else return storage)
    v.storage
  return { v with storage := storage, len := newLen }

end BoundedVec

/-- `array_to_bounded_vec`: the length is the number of non-empty entries, wherever they are. -/
def arrayToBoundedVec {T : Type} [DecidableEq T] [Empty T] {n : ℕ} (array : Vector T n) :
    BoundedVec T n :=
  { storage := array, len := array.toList.countP fun elem => !isEmpty elem,
    emptyValue := Empty.empty }

/-! ### The list a bounded vector stands for -/

/-- The bounded vector `v` stands for the list `l`: the entries of `l` come first, and every other
place is empty. -/
structure Stack {T : Type} {maxLen : ℕ} (v : BoundedVec T maxLen) (l : List T) : Prop where
  storage_eq : v.storage.toList = l ++ List.replicate (maxLen - l.length) v.emptyValue
  len_eq : v.len = l.length

namespace Stack

variable {T : Type} {maxLen : ℕ} {v v' : BoundedVec T maxLen} {l : List T}

theorem length_le (h : Stack v l) : l.length ≤ maxLen := by
  have := congrArg List.length h.storage_eq
  simp at this
  omega

theorem set_length_append (l r : List T) (x y : T) :
    (l ++ x :: r).set l.length y = l ++ y :: r := by
  simp

theorem replicate_sub (z : T) {n k : ℕ} (h : k < n) :
    List.replicate (n - k) z = z :: List.replicate (n - (k + 1)) z := by
  rw [show n - k = n - (k + 1) + 1 by omega, List.replicate_succ]

theorem new (z : T) : Stack (BoundedVec.new z : BoundedVec T maxLen) [] :=
  ⟨by simp [BoundedVec.new], rfl⟩

theorem push (h : Stack v l) {e : T} (hv : v.push e = .ok v') :
    Stack v' (l ++ [e]) ∧ v'.emptyValue = v.emptyValue := by
  simp only [BoundedVec.push, bind_eq_ok, assert_eq_ok, decide_eq_true_eq, pure_eq_ok] at hv
  obtain ⟨-, hlt, rfl⟩ := hv
  rw [h.len_eq] at hlt
  refine ⟨⟨?_, by simp [h.len_eq]⟩, rfl⟩
  simp only [Vector.toList_setIfInBounds, h.storage_eq, h.len_eq, List.length_append,
    List.length_singleton]
  rw [replicate_sub _ hlt, set_length_append]
  simp

theorem pop (h : Stack v l) {e : T} (hv : v.pop = .ok (e, v')) :
    ∃ l', l = l' ++ [e] ∧ Stack v' l' ∧ v'.emptyValue = v.emptyValue := by
  simp only [BoundedVec.pop, bind_eq_ok, assert_eq_ok, decide_eq_true_eq, get_eq_ok, pure_eq_ok,
    Prod.mk.injEq] at hv
  obtain ⟨-, hpos, e', he, rfl, rfl⟩ := hv
  rw [h.len_eq] at hpos he
  obtain ⟨l', x, rfl⟩ : ∃ l' x, l = l' ++ [x] :=
    ⟨l.dropLast, l.getLast (List.ne_nil_of_length_pos hpos), (List.dropLast_append_getLast _).symm⟩
  have hle := h.length_le
  have hst := h.storage_eq
  simp only [List.length_append, List.length_singleton, List.append_assoc, List.singleton_append,
    Nat.add_sub_cancel] at hst he hle
  have hx : x = e' := by
    rw [← Vector.getElem?_toList, hst] at he
    simpa using he
  subst hx
  refine ⟨l', rfl, ⟨?_, ?_⟩, rfl⟩
  · simp only [Vector.toList_setIfInBounds, hst, h.len_eq, List.length_append,
      List.length_singleton, Nat.add_sub_cancel]
    rw [set_length_append, replicate_sub _ (by omega : l'.length < maxLen)]
  · simp [h.len_eq]

theorem extend {len : ℕ} {w : BoundedVec T len} {m : List T} (h : Stack v l) (hw : Stack w m)
    (hv : v.extendFromBoundedVec w = .ok v') :
    Stack v' (l ++ m) ∧ v'.emptyValue = v.emptyValue := by
  simp only [BoundedVec.extendFromBoundedVec, bind_eq_ok, assert_eq_ok, decide_eq_true_eq,
    pure_eq_ok] at hv
  obtain ⟨-, hle, storage, hloop, rfl⟩ := hv
  rw [h.len_eq, hw.len_eq] at hle
  refine ⟨⟨?_, by simp [h.len_eq, hw.len_eq]⟩, rfl⟩
  -- after `n` turns of the loop the first `n` entries of `m` have been written
  suffices hinv : ∀ n ≤ len, ∀ storage, (List.range n).foldlM (fun (storage : Vector T maxLen) i =>
        if i < w.len then do
          let elem ← Noir.get w.storage i
          return storage.setIfInBounds (v.len + i) elem
        else return storage) v.storage = Except.ok storage →
      storage.toList = l ++ m.take n ++
        List.replicate (maxLen - (l.length + (m.take n).length)) v.emptyValue by
    have hm := hw.length_le
    have := hinv len le_rfl storage hloop
    rwa [List.take_of_length_le hm, ← List.length_append] at this
  intro n
  induction n with
  | zero =>
    intro _ storage hs
    simp only [List.range_zero, List.foldlM_nil, pure_eq_ok] at hs
    subst hs
    simp [h.storage_eq]
  | succ n ih =>
    intro hn storage hs
    rw [List.range_succ, List.foldlM_append, bind_eq_ok] at hs
    obtain ⟨mid, hmid, hs⟩ := hs
    have hmid := ih (by omega) mid hmid
    simp only [List.foldlM_cons, List.foldlM_nil, bind_pure] at hs
    split at hs
    · next hlt =>
      rw [hw.len_eq] at hlt
      simp only [bind_eq_ok, get_eq_ok, pure_eq_ok] at hs
      obtain ⟨e, he, rfl⟩ := hs
      have hem : m[n]? = some e := by
        rw [← Vector.getElem?_toList, hw.storage_eq, List.getElem?_append_left hlt] at he
        exact he
      have htake : m.take (n + 1) = m.take n ++ [e] := by
        rw [List.take_add_one, hem]; rfl
      have hlen : (l ++ m.take n).length = v.len + n := by
        rw [List.length_append, List.length_take, h.len_eq]; omega
      simp only [Vector.toList_setIfInBounds, hmid, htake]
      rw [← List.length_append, hlen, ← hlen,
        replicate_sub _ (by rw [hlen, h.len_eq]; omega), set_length_append]
      simp only [List.append_assoc, List.singleton_append, List.length_append,
        List.length_singleton]
      rfl
    · next hge =>
      rw [hw.len_eq, Nat.not_lt] at hge
      simp only [pure_eq_ok] at hs
      subst hs
      rw [List.take_of_length_le (by omega : m.length ≤ n + 1)]
      rwa [List.take_of_length_le hge] at hmid

end Stack

theorem stack_arrayToBoundedVec [DecidableEq T] [Empty T] {array : Vector T n}
    {l : List T} (ha : array.toList = l ++ List.replicate (n - l.length) Empty.empty)
    (hl : ∀ e ∈ l, e ≠ Empty.empty) : Stack (arrayToBoundedVec array) l := by
  refine ⟨ha, ?_⟩
  simpa [arrayToBoundedVec, ha, List.countP_replicate, isEmpty, List.countP_eq_length] using hl

end Noir
