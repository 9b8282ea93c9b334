/-
**Multilinear evaluation of polynomials, and their shifts.**

`evaluate_mle` folds neighbours in a buffer of half the size, one variable after the other from the
first.  `partial_evaluate_mle` folds halves in place, from the last variable.  Powers of two are
written as shifts of an `int`.  A shifted polynomial starts one coefficient later in the same
memory, and has the coefficient behind the last one at its end.
-/

import Aztec.GeminiShplonk

open List

namespace MlePolynomials

open Polynomial LowDivision Multilinear PolynomialArrays GeminiShplonk

variable {F : Type} [Field F] [DecidableEq F]

/-! ### The operations -/

/-- A loop that writes each entry once, from the first on. -/
def sweep (n : ℕ) (f : (ℕ → F) → ℕ → F) (a : ℕ → F) : ℕ → F :=
  (List.range n).foldl (fun a i => Function.update a i (f a i)) a

/-- The rounds of `evaluate_mle` after the first one. -/
def foldRounds : List F → (ℕ → F) → Option (ℕ → F)
  | [], tmp => some tmp
  | u :: us, tmp => do
    let n ← shiftOne us.length
    foldRounds us
      (sweep n (fun tmp i => tmp (2 * i) + u * (tmp (2 * i + 1) - tmp (2 * i))) tmp)

/-- `evaluate_mle`; `memory` is what the buffer held before. -/
def evaluateMle (memory : ℕ → F) (p : ArrayPoly F) (evaluationPoints : List F) (shift : Bool) :
    Option F :=
  match evaluationPoints with
  | [] => none
  | u :: us => do
    let size ← shiftOne (us.length + 1)
    if p.size ≠ size ∨ (shift = true ∧ p.coeffs 0 ≠ 0) then none
    else
      let n ← shiftOne us.length
      let prev : ℕ → F := if shift then fun i => p.coeffs (i + 1) else p.coeffs
      let tmp := sweep n
        (fun _ i => prev (2 * i) + u * (prev (2 * i + 1) - prev (2 * i))) memory
      let tmp ← foldRounds us tmp
      return tmp 0

/-- The rounds of `partial_evaluate_mle` after the first one, with the number of variables that
are left. -/
def foldTopRounds : List F → ℕ → ℕ × (ℕ → F) → Option (ℕ × (ℕ → F))
  | [], _, s => some s
  | u :: us, k, s => do
    let n ← shiftOne (k - 1)
    foldTopRounds us (k - 1)
      (n, sweep n (fun intermediate i =>
        intermediate i + u * (intermediate (i + n) - intermediate i)) s.2)

def isPowerOfTwo (x : ℕ) : Bool := x ≠ 0 && x &&& (x - 1) = 0

/-- `partial_evaluate_mle`; `memory` is what the buffers held before. -/
def partialEvaluateMle (memory : ℕ → F) (p : ArrayPoly F) (evaluationPoints : List F) :
    Option (ArrayPoly F) :=
  match evaluationPoints.reverse with
  | [] => none
  | u :: us => do
    let least ← shiftOne evaluationPoints.length
    if isPowerOfTwo p.size = false ∨ p.size < least then none
    else
      let n := Nat.log2 p.size
      let half ← shiftOne (n - 1)
      let intermediate := sweep half
        (fun _ i => p.coeffs i + u * (p.coeffs (i + half) - p.coeffs i)) memory
      let s ← foldTopRounds us (n - 1) (half, intermediate)
      return ⟨s.1, fun i => if i < s.1 then s.2 i else memory i⟩

/-- `shifted`: the same memory from the next coefficient on. -/
def shifted (p : ArrayPoly F) : Option (ArrayPoly F) :=
  if p.size = 0 ∨ p.coeffs 0 ≠ 0 ∨ p.coeffs p.size ≠ 0 then none
  else some ⟨p.size, fun i => p.coeffs (i + 1)⟩

def copy (other : ArrayPoly F) (targetSize : ℕ) : ArrayPoly F :=
  ⟨max targetSize other.size, fun i => if i < other.size then other.coeffs i else 0⟩

/-- The coefficient that `set_to_right_shifted` checks, in every round the same; `outside` lies
before the array. -/
def checkedCoefficient (outside : F) (coeffsIn : ℕ → F) (sizeIn shiftSize : ℕ) : F :=
  if shiftSize < sizeIn then coeffsIn (sizeIn - shiftSize - 1) else outside

/-- The coefficients of the result, with those that fall off left out. -/
def rightShifted (coeffsIn : ℕ → F) (sizeIn shiftSize : ℕ) : ArrayPoly F :=
  ⟨sizeIn, fun i =>
    if i < shiftSize then 0 else if i < sizeIn then coeffsIn (i - shiftSize) else 0⟩

def setToRightShifted (outside : F) (coeffsIn : ℕ → F) (sizeIn shiftSize : ℕ) :
    Option (ArrayPoly F) :=
  if sizeIn = 0 ∨ sizeIn < shiftSize then none
  else if (List.range shiftSize).all
      fun _ => checkedCoefficient outside coeffsIn sizeIn shiftSize = 0 then
    some (rightShifted coeffsIn sizeIn shiftSize)
  else none

/-! ### The loops -/

omit [Field F] [DecidableEq F] in
theorem sweep_apply {f : (ℕ → F) → ℕ → F} {a : ℕ → F} (n : ℕ)
    (hf : ∀ i b, (∀ k, i ≤ k → b k = a k) → f b i = f a i) (j : ℕ) :
    sweep n f a j = if j < n then f a j else a j := by
  induction n generalizing j with
  | zero => rfl
  | succ n ih =>
    have hstep : sweep (n + 1) f a = Function.update (sweep n f a) n (f (sweep n f a) n) := by
      rw [sweep, range_succ, foldl_append]
      rfl
    rw [hstep, Function.update_apply]
    by_cases hj : j = n
    · rw [if_pos hj, if_pos (by omega), hj]
      refine hf n _ fun k hk => ?_
      rw [ih, if_neg (by omega)]
    · rw [if_neg hj, ih]
      by_cases hlt : j < n
      · rw [if_pos hlt, if_pos (by omega)]
      · rw [if_neg hlt, if_neg (by omega)]

theorem shiftOne_of_lt {k : ℕ} (hk : k < 31) : shiftOne k = some (2 ^ k) := if_pos hk

omit [DecidableEq F] in
theorem sweep_foldOnce (n : ℕ) (u : F) (tmp : ℕ → F) (j : ℕ) :
    sweep n (fun tmp i => tmp (2 * i) + u * (tmp (2 * i + 1) - tmp (2 * i))) tmp j =
      if j < n then foldOnce u tmp j else tmp j := by
  refine sweep_apply n (fun i b hb => ?_) j
  rw [hb _ (by omega), hb _ (by omega)]

omit [DecidableEq F] in
theorem foldRounds_eq (us : List F) (hus : us.length < 31) (tmp : ℕ → F) :
    ∃ tmp', foldRounds us tmp = some tmp' ∧ tmp' 0 = multilinear us tmp := by
  induction us generalizing tmp with
  | nil => exact ⟨tmp, rfl, (multilinear_nil tmp).symm⟩
  | cons u us ih =>
    rw [length_cons] at hus
    obtain ⟨tmp', hrounds, hvalue⟩ := ih (by omega) (sweep (2 ^ us.length)
      (fun tmp i => tmp (2 * i) + u * (tmp (2 * i + 1) - tmp (2 * i))) tmp)
    refine ⟨tmp', ?_, ?_⟩
    · rw [foldRounds, shiftOne_of_lt (by omega)]
      exact hrounds
    · rw [hvalue, multilinear_cons]
      refine multilinear_congr fun i hi => ?_
      rw [sweep_foldOnce, if_pos hi]

omit [DecidableEq F] in
theorem foldTopRounds_eq (us rounds : List F) (hlength : us.length + rounds.length < 31)
    (s : ℕ × (ℕ → F)) (hs : s.1 = 2 ^ (us.length + rounds.length)) :
    ∃ tmp', foldTopRounds rounds (us.length + rounds.length) s = some (2 ^ us.length, tmp') ∧
      multilinear us tmp' = multilinear (us ++ rounds.reverse) s.2 := by
  induction rounds generalizing s with
  | nil =>
    refine ⟨s.2, ?_, by rw [reverse_nil, append_nil]⟩
    rw [length_nil, Nat.add_zero] at hs
    rw [foldTopRounds, ← hs]
  | cons u rounds ih =>
    rw [length_cons] at hlength ⊢
    have hpred : us.length + (rounds.length + 1) - 1 = us.length + rounds.length := by omega
    obtain ⟨tmp', hrounds, hvalue⟩ := ih (by omega) (2 ^ (us.length + rounds.length),
      sweep (2 ^ (us.length + rounds.length)) (fun intermediate i => intermediate i +
        u * (intermediate (i + 2 ^ (us.length + rounds.length)) - intermediate i)) s.2) rfl
    refine ⟨tmp', ?_, ?_⟩
    · rw [foldTopRounds, hpred, shiftOne_of_lt (by omega)]
      exact hrounds
    · rw [hvalue, reverse_cons, ← append_assoc, multilinear_concat]
      refine multilinear_congr fun i hi => ?_
      rw [length_append, length_reverse] at hi ⊢
      dsimp only
      rw [sweep_apply (2 ^ (us.length + rounds.length)) fun i b hb => by
        rw [hb _ (by omega), hb _ (by omega)], if_pos hi, foldTop, add_comm i]

/-! ### The evaluations -/

def evaluated (p : ArrayPoly F) (shift : Bool) : ℕ → F :=
  if shift then fun i => p.coeffs (i + 1) else p.coeffs

variable {p : ArrayPoly F} {us : List F} {sizeIn shiftSize : ℕ}

variable (memory : ℕ → F)

theorem evaluateMle_eq {shift : Bool} (hne : us ≠ []) (hlength : us.length < 31)
    (hsize : p.size = 2 ^ us.length) (hshift : shift = true → p.coeffs 0 = 0) :
    evaluateMle memory p us shift = some (multilinear us (evaluated p shift)) := by
  obtain ⟨u, us, rfl⟩ := exists_cons_of_ne_nil hne
  rw [length_cons] at hlength hsize
  have hguard : ¬(p.size ≠ 2 ^ (us.length + 1) ∨ (shift = true ∧ p.coeffs 0 ≠ 0)) := by
    rintro (h | ⟨htrue, h⟩)
    · exact h hsize
    · exact h (hshift htrue)
  obtain ⟨tmp', hrounds, hvalue⟩ := foldRounds_eq us (by omega) (sweep (2 ^ us.length)
    (fun _ i => evaluated p shift (2 * i) +
      u * (evaluated p shift (2 * i + 1) - evaluated p shift (2 * i))) memory)
  have hrun : evaluateMle memory p (u :: us) shift = some (tmp' 0) := by
    rw [evaluateMle, shiftOne_of_lt hlength, Option.bind_eq_bind, Option.bind_some, if_neg hguard,
      shiftOne_of_lt (by omega)]
    exact congrArg (fun tmp : Option (ℕ → F) => tmp.bind fun tmp => some (tmp 0)) hrounds
  rw [hrun, hvalue, multilinear_cons]
  refine congrArg some (multilinear_congr fun i hi => ?_)
  rw [sweep_apply (2 ^ us.length) fun _ _ _ => rfl, if_pos hi, foldOnce]

theorem evaluateMle_eq_none (p : ArrayPoly F) (shift : Bool) (hlength : ¬us.length < 31) :
    evaluateMle memory p us shift = none := by
  cases us with
  | nil => rfl
  | cons u us =>
    rw [length_cons] at hlength
    rw [evaluateMle, shiftOne, if_neg hlength]
    rfl

theorem isPowerOfTwo_two_pow (k : ℕ) : isPowerOfTwo (2 ^ k) = true := by
  rw [isPowerOfTwo, Nat.and_two_pow_sub_one_eq_mod, Nat.mod_self]
  simp

omit [DecidableEq F] in
theorem partialEvaluateMle_eq {vs : List F} (hne : vs ≠ []) (hlength : (us ++ vs).length < 31)
    (hsize : p.size = 2 ^ (us ++ vs).length) :
    ∃ q, partialEvaluateMle memory p vs = some q ∧ q.size = 2 ^ us.length ∧
      multilinear us q.coeffs = multilinear (us ++ vs) p.coeffs := by
  obtain ⟨u, rounds, hrev⟩ := exists_cons_of_ne_nil (reverse_ne_nil_iff.2 hne)
  have hvs : vs = rounds.reverse ++ [u] := by
    rw [← reverse_reverse vs, hrev, reverse_cons]
  have hcount : vs.length = rounds.length + 1 := by
    rw [hvs, length_append, length_reverse, length_singleton]
  rw [length_append, hcount, ← Nat.add_assoc] at hlength hsize
  have hguard : ¬(isPowerOfTwo p.size = false ∨ p.size < 2 ^ vs.length) := by
    rw [hsize, isPowerOfTwo_two_pow, hcount]
    rintro (h | h)
    · cases h
    · exact absurd (Nat.pow_le_pow_right (by omega) (by omega)) h.not_ge
  obtain ⟨tmp', hrounds, hvalue⟩ := foldTopRounds_eq us rounds (by omega)
    (2 ^ (us.length + rounds.length), sweep (2 ^ (us.length + rounds.length))
      (fun _ i => p.coeffs i +
        u * (p.coeffs (i + 2 ^ (us.length + rounds.length)) - p.coeffs i)) memory) rfl
  refine ⟨⟨2 ^ us.length, fun i => if i < 2 ^ us.length then tmp' i else memory i⟩, ?_, rfl, ?_⟩
  · rw [partialEvaluateMle, hrev]
    dsimp only
    rw [shiftOne_of_lt (by omega), Option.bind_eq_bind, Option.bind_some, if_neg hguard, hsize,
      Nat.log2_two_pow, Nat.add_sub_cancel, shiftOne_of_lt (by omega), Option.bind_eq_bind,
      Option.bind_some, hrounds]
    rfl
  · have hcut : multilinear us (fun i => if i < 2 ^ us.length then tmp' i else memory i) =
        multilinear us tmp' := multilinear_congr fun i hi => if_pos hi
    rw [hcut, hvalue, hvs, ← append_assoc, multilinear_concat]
    refine multilinear_congr fun i hi => ?_
    rw [length_append, length_reverse] at hi ⊢
    dsimp only
    rw [sweep_apply (2 ^ (us.length + rounds.length)) fun _ _ _ => rfl, if_pos hi, foldTop,
      add_comm i]

theorem shifted_copy (hpos : 0 < p.size) (hfirst : p.coeffs 0 = 0) (hlast : p.coeffs p.size = 0) :
    ∃ q, shifted p = some q ∧ q.size = p.size ∧
      ∀ i < p.size, (copy q q.size).coeffs i = p.coeffs (i + 1) := by
  refine ⟨⟨p.size, fun i => p.coeffs (i + 1)⟩, if_neg ?_, rfl, fun i hi => if_pos hi⟩
  rintro (h | h | h)
  · omega
  · exact h hfirst
  · exact h hlast

/-- The evaluations of `p` agree: all at once, the last variables before the first ones, and with
shifted coefficients. -/
def MleRight (memory : ℕ → F) (p : ArrayPoly F) (us : List F) : Prop :=
  evaluateMle memory p us false = some (multilinear us p.coeffs) ∧
  (∀ first last : List F, first ≠ [] → last ≠ [] → first ++ last = us →
    ∃ q, partialEvaluateMle memory p last = some q ∧
      evaluateMle memory q first false = some (multilinear us p.coeffs)) ∧
  (p.coeffs 0 = 0 →
    evaluateMle memory p us true = some (multilinear us fun i => p.coeffs (i + 1)) ∧
    ∃ q, shifted p = some q ∧
      evaluateMle memory (copy q q.size) us false =
        some (multilinear us fun i => p.coeffs (i + 1)))

theorem mleRight_of_lt (hne : us ≠ []) (hsize : p.size = 2 ^ us.length)
    (hzero : p.coeffs p.size = 0) (hlength : us.length < 31) : MleRight memory p us := by
  refine ⟨evaluateMle_eq memory hne hlength hsize nofun, ?_, fun hfirst => ⟨?_, ?_⟩⟩
  · rintro first last hfirst hlast rfl
    obtain ⟨q, hq, hqsize, hvalue⟩ := partialEvaluateMle_eq memory hlast hlength hsize
    have hless : first.length < 31 := by
      rw [length_append] at hlength
      omega
    have hrun : evaluateMle memory q first false = some (multilinear first q.coeffs) :=
      evaluateMle_eq memory hfirst hless hqsize nofun
    exact ⟨q, hq, by rw [hrun, hvalue]⟩
  · exact evaluateMle_eq memory hne hlength hsize fun _ => hfirst
  · have hpos : 0 < p.size := hsize ▸ Nat.two_pow_pos _
    obtain ⟨q, hq, hqsize, hcopy⟩ := shifted_copy hpos hfirst hzero
    refine ⟨q, hq, ?_⟩
    have hcopysize : (copy q q.size).size = 2 ^ us.length := by
      rw [copy, max_self, hqsize, hsize]
    have hrun : evaluateMle memory (copy q q.size) us false =
        some (multilinear us (copy q q.size).coeffs) :=
      evaluateMle_eq memory hne hlength hcopysize nofun
    rw [hrun]
    exact congrArg some (multilinear_congr fun i hi => hcopy i (hsize ▸ hi))

/-! ### Right shifts -/

/-- Whenever the checks pass, the result is `X ^ shiftSize` times the input. -/
def RightShifted (outside : F) (coeffsIn : ℕ → F) (sizeIn shiftSize : ℕ) : Prop :=
  ∀ q, setToRightShifted outside coeffsIn sizeIn shiftSize = some q →
    q.denote = X ^ shiftSize * ofArray sizeIn coeffsIn

omit [DecidableEq F] in
theorem denote_rightShifted_iff (coeffsIn : ℕ → F) (hshift : shiftSize ≤ sizeIn) :
    (rightShifted coeffsIn sizeIn shiftSize).denote = X ^ shiftSize * ofArray sizeIn coeffsIn ↔
      ∀ i, sizeIn - shiftSize ≤ i → i < sizeIn → coeffsIn i = 0 := by
  have hproduct : ∀ n, (X ^ shiftSize * ofArray sizeIn coeffsIn).coeff n =
      if shiftSize ≤ n then (if n - shiftSize < sizeIn then coeffsIn (n - shiftSize) else 0)
        else 0 := by
    intro n
    rw [coeff_X_pow_mul', coeff_ofArray]
  have hshifted : ∀ n, (rightShifted coeffsIn sizeIn shiftSize).denote.coeff n =
      if n < sizeIn then (if n < shiftSize then 0 else coeffsIn (n - shiftSize)) else 0 := by
    intro n
    rw [ArrayPoly.denote, coeff_ofArray, rightShifted]
    by_cases hn : n < sizeIn
    · simp only [hn, if_true]
    · simp only [hn, if_false]
  rw [Polynomial.ext_iff]
  constructor
  · intro h i hlow hhigh
    have hcoeff := h (i + shiftSize)
    rw [hshifted, hproduct, if_neg (by omega), if_pos (by omega), Nat.add_sub_cancel,
      if_pos hhigh] at hcoeff
    exact hcoeff.symm
  · intro h n
    rw [hshifted, hproduct]
    by_cases hlow : n < shiftSize
    · rw [if_neg (show ¬shiftSize ≤ n by omega), if_pos hlow, ite_self]
    · rw [if_neg hlow, if_pos (show shiftSize ≤ n by omega)]
      by_cases hn : n < sizeIn
      · rw [if_pos hn, if_pos (by omega)]
      · rw [if_neg hn]
        by_cases hfar : n - shiftSize < sizeIn
        · rw [if_pos hfar, h _ (by omega) hfar]
        · rw [if_neg hfar]

theorem rightShifted_iff (outside : F) (coeffsIn : ℕ → F) (hpos : 0 < sizeIn)
    (hshift : shiftSize ≤ sizeIn) : RightShifted outside coeffsIn sizeIn shiftSize ↔
      checkedCoefficient outside coeffsIn sizeIn shiftSize ≠ 0 ∨
        ∀ i, sizeIn - shiftSize ≤ i → i < sizeIn → coeffsIn i = 0 := by
  have hguard : ¬(sizeIn = 0 ∨ sizeIn < shiftSize) := by omega
  by_cases hall : (range shiftSize).all
      fun _ => checkedCoefficient outside coeffsIn sizeIn shiftSize = 0
  · have hsome : setToRightShifted outside coeffsIn sizeIn shiftSize =
        some (rightShifted coeffsIn sizeIn shiftSize) := by
      rw [setToRightShifted, if_neg hguard, if_pos hall]
    have hrun : RightShifted outside coeffsIn sizeIn shiftSize ↔
        (rightShifted coeffsIn sizeIn shiftSize).denote = X ^ shiftSize * ofArray sizeIn coeffsIn :=
      ⟨fun h => h _ hsome, fun h q hq => Option.some.inj (hsome.symm.trans hq) ▸ h⟩
    rw [hrun, denote_rightShifted_iff coeffsIn hshift]
    refine ⟨.inr, fun h => h.elim (fun hchecked i hlow hhigh => ?_) id⟩
    -- some coefficient falls off, so that the check was made
    have hzero := all_eq_true.1 hall 0 (mem_range.2 (by omega))
    exact absurd (of_decide_eq_true hzero) hchecked
  · refine iff_of_true (fun q hq => ?_) (.inl fun hchecked => hall ?_)
    · rw [setToRightShifted, if_neg hguard, if_neg hall] at hq
      exact absurd hq (Option.some_ne_none q).symm
    · exact all_eq_true.2 fun _ _ => decide_eq_true hchecked

/-- **Multilinear evaluations and shifts are right exactly below 31 variables; a right shift is
right exactly where the last coefficients are zero or the checked one is not.** -/
theorem mle_iff (memory : ℕ → F) {p : ArrayPoly F} {us : List F} (hne : us ≠ [])
    (hsize : p.size = 2 ^ us.length) (hzero : p.coeffs p.size = 0) (outside : F)
    (coeffsIn : ℕ → F) {sizeIn shiftSize : ℕ} (hpos : 0 < sizeIn) (hshift : shiftSize ≤ sizeIn) :
    (MleRight memory p us ↔ us.length < 31) ∧ (RightShifted outside coeffsIn sizeIn shiftSize ↔
      checkedCoefficient outside coeffsIn sizeIn shiftSize ≠ 0 ∨
        ∀ i, sizeIn - shiftSize ≤ i → i < sizeIn → coeffsIn i = 0) := by
  refine ⟨⟨fun h => ?_, mleRight_of_lt memory hne hsize hzero⟩,
    rightShifted_iff outside coeffsIn hpos hshift⟩
  by_contra hlength
  have := h.1
  rw [evaluateMle_eq_none memory p false hlength] at this
  cases this

namespace TwoVariables

def polynomial : ArrayPoly ℚ := ⟨4, fun i => if i < 4 then i else 0⟩

def coefficientsIn (i : ℕ) : ℚ := if i < 3 then i + 1 else 0

/-- Evaluated at once, one variable after the other and shifted; and `1, 2, 3` shifted right. -/
theorem mle_iff_twoVariables :
    MleRight (fun _ => 7) polynomial [3, 5] ∧ RightShifted 0 coefficientsIn 4 1 := by
  have hlast : polynomial.coeffs polynomial.size = 0 := by simp [polynomial]
  obtain ⟨hmle, hshift⟩ := mle_iff (fun _ => 7) (p := polynomial) (List.cons_ne_nil 3 [5]) rfl
    hlast 0 coefficientsIn (show 0 < 4 by decide) (show 1 ≤ 4 by decide)
  refine ⟨hmle.2 (by simp), hshift.2 (.inr fun i hlow _ => if_neg ?_)⟩
  omega

end TwoVariables

theorem not_rightShifted : ¬RightShifted (0 : ℚ) (fun i => if i = 1 then 0 else 1) 3 1 := by
  intro h
  obtain hchecked | hlast := (rightShifted_iff 0 _ (by decide) (by decide)).1 h
  · exact hchecked (by simp [checkedCoefficient])
  · have hlost := hlast 2 (by decide) (by decide)
    norm_num at hlost

end MlePolynomials
