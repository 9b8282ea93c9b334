/-
**Division, powers and inverses of wide integers.**

`divmod` is a long division, `pow` squares and multiplies, and `invmod` runs Euclid's algorithm with
coefficients that wrap below zero; where the modulus comes near to the width, the algorithm runs in
the type of twice the width.
-/

import Aztec.Uintx

namespace Uintx

open UintOps UintValue LawfulUint LawfulUint

/-! ### The operations -/

section Operations

variable {β : Type} [UintOps β]

/-- `divmod`, with its assertion. -/
def divmod (a b : Uintx β) : Option (Uintx β × Uintx β) :=
  if UintOps.eq b (UintOps.ofUint64 0) then none else longDivision a b

def unsafeInvmodLoop : ℕ → Uintx β → Uintx β → Uintx β → Uintx β → Option (Uintx β)
  | 0, _, _, _, _ => none
  | fuel + 1, t1, t2, r1, r2 =>
    if UintOps.eq r2 (UintOps.ofUint64 0) then some t1
    else do
      let (q, _) ← divmod r1 r2
      unsafeInvmodLoop fuel t2 (UintOps.sub t1 (UintOps.mul q t2)) r2
        (UintOps.sub r1 (UintOps.mul q r2))

def unsafeInvmod (fuel : ℕ) (a modulus : Uintx β) : Option (Uintx β) :=
  (if UintOps.gt a modulus then (divmod a modulus).map Prod.snd else some a).bind fun r2 =>
    (unsafeInvmodLoop fuel (UintOps.ofUint64 0) (UintOps.ofUint64 1) modulus r2).map fun t1 =>
      if UintOps.gt t1 modulus then UintOps.add modulus t1 else t1

def invmod (fuel : ℕ) (a modulus : Uintx β) : Option (Uintx β) :=
  if UintOps.eq a (UintOps.ofUint64 0) then none
  else if UintOps.eq modulus (UintOps.ofUint64 0) then some (UintOps.ofUint64 0)
  else if (UintOps.getMsb modulus).toNat ≥ 2 * UintOps.length β - 1 then
    (unsafeInvmod fuel (ofBase a) (ofBase modulus)).map Uintx.lo
  else unsafeInvmod fuel a modulus

end Operations

/-! ### Wrapped integers -/

section Wrapped

variable {α : Type} [UintOps α] [UintValue α] [LawfulUint α]

/-- The integer that a word stands for is known up to the width. -/
def Wraps (x : α) (t : ℤ) : Prop := (toNat x : ℤ) ≡ t [ZMOD 2 ^ UintOps.length α]

theorem wraps_ofUint64 (w : Word) : Wraps (UintOps.ofUint64 w : α) w.toNat := by
  rw [Wraps, toNat_ofUint64]

variable {x y : α} {s t : ℤ}

section

variable (hx : Wraps x s) (hy : Wraps y t)
include hx hy

theorem Wraps.add : Wraps (UintOps.add x y) (s + t) := by
  rw [Wraps, toNat_add]
  push_cast
  exact (Int.mod_modEq _ _).trans (Int.ModEq.add hx hy)

theorem Wraps.sub : Wraps (UintOps.sub x y) (s - t) := by
  rw [Wraps, toNat_sub]
  push_cast [(toNat_lt y).le]
  refine (Int.mod_modEq _ _).trans ?_
  have hwidth : (toNat x : ℤ) + (2 ^ UintOps.length α - toNat y) ≡ toNat x - toNat y
      [ZMOD 2 ^ UintOps.length α] := by
    refine (Int.modEq_iff_dvd.2 ⟨-1, ?_⟩)
    ring
  exact hwidth.trans (Int.ModEq.sub hx hy)

theorem Wraps.mul : Wraps (UintOps.mul x y) (s * t) := by
  rw [Wraps, toNat_mul]
  push_cast
  exact (Int.mod_modEq _ _).trans (Int.ModEq.mul hx hy)

end

theorem Wraps.toNat_eq (hx : Wraps x t) (hpos : 0 ≤ t) (hlt : t < 2 ^ UintOps.length α) :
    (toNat x : ℤ) = t := by
  have hmod := hx.eq
  have hbound : (toNat x : ℤ) < 2 ^ UintOps.length α := by exact_mod_cast toNat_lt x
  rwa [Int.emod_eq_of_lt (Int.natCast_nonneg _) hbound, Int.emod_eq_of_lt hpos hlt] at hmod

theorem Wraps.toNat_eq_of_neg (hx : Wraps x t) (hneg : t < 0) (hlt : -2 ^ UintOps.length α ≤ t) :
    (toNat x : ℤ) = t + 2 ^ UintOps.length α := by
  refine Wraps.toNat_eq (hx.trans (Int.modEq_iff_dvd.2 ⟨1, ?_⟩)) (by omega) (by omega)
  ring

end Wrapped

variable {β : Type} [UintOps β] [UintValue β] [LawfulUint (Uintx β)]

theorem divmod_eq (a : Uintx β) {b : Uintx β} (hb : toNat b ≠ 0) :
    ∃ q r, divmod a b = some (q, r) ∧ toNat q * toNat b + toNat r = toNat a ∧
      toNat r < toNat b := by
  rw [divmod, if_neg (by rw [eq_iff, toNat_ofUint64]; exact hb)]
  exact longDivision_eq a hb

/-! ### Euclid's algorithm -/

/-- What holds before each round: the coefficients have opposite signs, and the remainders with the
coefficients crosswise give the modulus. -/
structure Euclid (a m : ℤ) (t1 t2 r1 r2 : ℤ) : Prop where
  first : a * t1 ≡ r1 [ZMOD m]
  second : a * t2 ≡ r2 [ZMOD m]
  sign : t1 * t2 ≤ 0
  cross : |t1| * r2 + |t2| * r1 = m
  small : 2 * |t1| ≤ m
  gcd : Int.gcd r1 r2 = 1
  nonneg : 0 ≤ r2
  lt : r2 < r1

theorem Euclid.step {a m t1 t2 r1 r2 q : ℤ} (h : Euclid a m t1 t2 r1 r2) (hpos : 0 < r2)
    (hq : 0 ≤ q) (hr : 0 ≤ r1 - q * r2) (hlt : r1 - q * r2 < r2) :
    Euclid a m t2 (t1 - q * t2) r2 (r1 - q * r2) where
  first := h.second
  second := by
    have hsub := h.first.sub (h.second.mul_left q)
    rwa [show a * t1 - q * (a * t2) = a * (t1 - q * t2) by ring] at hsub
  sign := by
    have hsquare : 0 ≤ q * (t2 * t2) := mul_nonneg hq (mul_self_nonneg t2)
    have hsign := h.sign
    nlinarith
  cross := by
    have hcross := h.cross
    have habs : |t1 - q * t2| = |t1| + q * |t2| := by
      have hopposite : |t1 + -(q * t2)| = |t1| + |-(q * t2)| := by
        rw [abs_add_eq_add_abs_iff]
        rcases le_total 0 t1 with h1 | h1 <;> rcases le_total 0 t2 with h2 | h2
        · rcases h1.eq_or_lt with h0 | h0
          · exact .inr ⟨h0.symm.le, neg_nonpos.2 (mul_nonneg hq h2)⟩
          · have : t2 = 0 := le_antisymm (by
              by_contra hcon
              exact absurd h.sign (not_le.2 (mul_pos h0 (by omega)))) h2
            exact .inl ⟨h1, by rw [this, mul_zero, neg_zero]⟩
        · exact .inl ⟨h1, neg_nonneg.2 (mul_nonpos_of_nonneg_of_nonpos hq h2)⟩
        · exact .inr ⟨h1, neg_nonpos.2 (mul_nonneg hq h2)⟩
        · rcases h1.eq_or_lt with h0 | h0
          · exact .inl ⟨h0.symm.le, neg_nonneg.2 (mul_nonpos_of_nonneg_of_nonpos hq h2)⟩
          · have : t2 = 0 := le_antisymm h2 (by
              by_contra hcon
              exact absurd h.sign (not_le.2 (mul_pos_of_neg_of_neg h0 (by omega))))
            exact .inr ⟨h1, by rw [this, mul_zero, neg_zero]⟩
      rw [sub_eq_add_neg, hopposite, abs_neg, abs_mul, abs_of_nonneg hq]
    rw [habs]
    linear_combination hcross
  small := by
    have hcross := h.cross
    have hlt' := h.lt
    have h1 : 0 ≤ |t1| * r2 := mul_nonneg (abs_nonneg _) h.nonneg
    have h2 : |t2| * 2 ≤ |t2| * r1 := mul_le_mul_of_nonneg_left (by omega) (abs_nonneg _)
    omega
  gcd := by
    rw [show r1 - q * r2 = r1 + r2 * -q by ring, Int.gcd_comm, Int.gcd_add_mul_left_left]
    exact h.gcd
  nonneg := hr
  lt := hlt

theorem unsafeInvmodLoop_eq {a m : ℤ} :
    ∀ (n : ℕ) {t1 t2 r1 r2 : Uintx β} {s1 s2 : ℤ}, toNat r2 ≤ n → Wraps t1 s1 → Wraps t2 s2 →
      Euclid a m s1 s2 (toNat r1) (toNat r2) →
      ∃ t s, (∀ fuel, n < fuel → unsafeInvmodLoop fuel t1 t2 r1 r2 = some t) ∧ Wraps t s ∧
        a * s ≡ 1 [ZMOD m] ∧ 2 * |s| ≤ m := by
  intro n
  induction n with
  | zero =>
    intro t1 t2 r1 r2 s1 s2 hn h1 h2 he
    have hzero : toNat r2 = 0 := Nat.le_zero.1 hn
    have hone : (toNat r1 : ℤ) = 1 := by
      have hgcd := he.gcd
      rwa [hzero, Nat.cast_zero, Int.gcd_zero_right, Int.natAbs_natCast, ← Nat.cast_inj (R := ℤ)]
        at hgcd
    refine ⟨t1, s1, fun fuel hfuel => ?_, h1, hone ▸ he.first, he.small⟩
    obtain ⟨fuel, rfl⟩ : ∃ k, fuel = k + 1 := ⟨fuel - 1, by omega⟩
    rw [unsafeInvmodLoop,
      if_pos (by rw [eq_iff, toNat_ofUint64]; exact hzero)]
  | succ n ih =>
    intro t1 t2 r1 r2 s1 s2 hn h1 h2 he
    by_cases hzero : toNat r2 = 0
    · obtain ⟨t, s, hloop, hrest⟩ := ih (show toNat r2 ≤ n by omega) h1 h2 he
      exact ⟨t, s, fun fuel hfuel => hloop fuel (by omega), hrest⟩
    obtain ⟨q, r, hdivmod, hq, hr⟩ := divmod_eq r1 hzero
    have hr1 := toNat_lt r1
    have hmul : toNat (UintOps.mul q r2) = toNat q * toNat r2 := by
      rw [toNat_mul, Nat.mod_eq_of_lt (by omega)]
    have hsub : toNat (UintOps.sub r1 (UintOps.mul q r2)) = toNat r := by
      rw [toNat_sub_of_le (by rw [hmul]; omega), hmul]
      omega
    have hcast : (toNat r : ℤ) = toNat r1 - toNat q * toNat r2 := by
      rw [← hq]
      push_cast
      ring
    have hwraps : Wraps q (toNat q) := Int.ModEq.refl _
    have hstep := he.step (q := toNat q) (by omega) (Int.natCast_nonneg _)
      (by rw [← hcast]; exact Int.natCast_nonneg _) (by rw [← hcast]; exact_mod_cast hr)
    rw [← hcast, ← hsub] at hstep
    obtain ⟨t, s, hloop, hrest⟩ := ih (by rw [hsub]; omega) h2 (h1.sub (hwraps.mul h2)) hstep
    refine ⟨t, s, fun fuel hfuel => ?_, hrest⟩
    obtain ⟨fuel, rfl⟩ : ∃ k, fuel = k + 1 := ⟨fuel - 1, by omega⟩
    rw [unsafeInvmodLoop,
      if_neg (by rw [eq_iff, toNat_ofUint64]; exact hzero), hdivmod]
    exact hloop fuel (by omega)

theorem unsafeInvmod_eq {a m : Uintx β} (hm : 1 < toNat m)
    (htop : 2 * toNat m < 2 ^ UintOps.length (Uintx β)) (hcoprime : (toNat a).Coprime (toNat m)) :
    ∃ n x, (∀ fuel, n < fuel → unsafeInvmod fuel a m = some x) ∧ toNat x < toNat m ∧
      (toNat a * toNat x) % toNat m = 1 := by
  -- the operand is reduced
  obtain ⟨r, hr, hrlt, hmod⟩ : ∃ r : Uintx β,
      (if UintOps.gt a m then (divmod a m).map Prod.snd else some a) = some r ∧
        toNat r < toNat m ∧ toNat a ≡ toNat r [MOD toNat m] := by
    by_cases hgt : toNat m < toNat a
    · obtain ⟨q, r, hdivmod, hq, hr⟩ := divmod_eq a (show toNat m ≠ 0 by omega)
      refine ⟨r, ?_, hr, ?_⟩
      · rw [if_pos ((gt_iff _ _).2 hgt), hdivmod]
        rfl
      · rw [← hq, Nat.ModEq, Nat.mul_add_mod_self_right]
    · have hne : toNat a ≠ toNat m := by
        intro heq
        rw [heq, Nat.coprime_self] at hcoprime
        omega
      exact ⟨a, if_neg (by rw [gt_iff]; exact hgt), by omega, rfl⟩
  have hgcd : Int.gcd (toNat m) (toNat r) = 1 := by
    rw [Int.gcd_natCast_natCast, Nat.gcd_comm, ← hmod.gcd_eq]
    exact hcoprime
  have hmodInt : (toNat a : ℤ) ≡ toNat r [ZMOD toNat m] := Int.natCast_modEq_iff.2 hmod
  have hstart : Euclid (toNat a) (toNat m) 0 1 (toNat m) (toNat r) :=
    { first := by rw [mul_zero]; exact (Int.modEq_zero_iff_dvd.2 dvd_rfl).symm
      second := by rw [mul_one]; exact hmodInt
      sign := by norm_num
      cross := by rw [abs_zero, abs_one, zero_mul, one_mul, zero_add]
      small := by rw [abs_zero, mul_zero]; exact Int.natCast_nonneg _
      gcd := hgcd
      nonneg := Int.natCast_nonneg _
      lt := by exact_mod_cast hrlt }
  obtain ⟨t, s, hloop, ht, hinv, hs⟩ := unsafeInvmodLoop_eq (toNat r) le_rfl
    (wraps_ofUint64 0 : Wraps (UintOps.ofUint64 0 : Uintx β) _) (wraps_ofUint64 1) hstart
  have hwidth : 2 * (toNat m : ℤ) < 2 ^ UintOps.length (Uintx β) := by exact_mod_cast htop
  obtain ⟨hslow, hshigh⟩ := abs_le.1 (show |s| ≤ toNat m - |s| by omega)
  -- the coefficient, made positive
  obtain ⟨x, hx, hxlt, hxmod⟩ : ∃ x : Uintx β,
      (if UintOps.gt t m then UintOps.add m t else t) = x ∧ toNat x < toNat m ∧
        (toNat x : ℤ) ≡ s [ZMOD toNat m] := by
    by_cases hneg : s < 0
    · have habs := abs_of_neg hneg
      have htval := ht.toNat_eq_of_neg hneg (by omega)
      have hgt : toNat m < toNat t := by omega
      have hsum : Wraps (UintOps.add m t) (toNat m + s) := Wraps.add (Int.ModEq.refl _) ht
      have hval := hsum.toNat_eq (by omega) (by omega)
      refine ⟨_, if_pos ((gt_iff _ _).2 hgt), by omega, ?_⟩
      rw [hval]
      exact (Int.modEq_iff_dvd.2 ⟨-1, by ring⟩)
    · have habs := abs_of_nonneg (not_lt.1 hneg)
      have htval := ht.toNat_eq (by omega) (by omega)
      have hle : ¬toNat m < toNat t := by omega
      refine ⟨t, if_neg (by rw [gt_iff]; exact hle), by omega, ?_⟩
      rw [htval]
  refine ⟨toNat r, x, fun fuel hfuel => ?_, hxlt, ?_⟩
  · rw [unsafeInvmod, hr, Option.bind_some, hloop fuel hfuel, Option.map_some, hx]
  · have hone : ((toNat a * toNat x : ℕ) : ℤ) ≡ (1 : ℕ) [ZMOD toNat m] := by
      push_cast
      exact (hxmod.mul_left _).trans hinv
    have hnat := Int.natCast_modEq_iff.1 hone
    rwa [Nat.ModEq, Nat.mod_eq_of_lt hm] at hnat

omit [LawfulUint (Uintx β)] in
theorem toNat_ofBase [LawfulUint β] (a : β) : toNat (ofBase a) = toNat a := by
  rw [toNat_eq, ofBase, toNat_ofUint64, show (0 : Word).toNat = 0 from rfl, mul_zero,
    add_zero]

theorem invmod_eq [LawfulUint (Uintx (Uintx β))] {a m : Uintx β} (hm : 1 < toNat m)
    (hcoprime : (toNat a).Coprime (toNat m)) :
    ∃ n x, (∀ fuel, n < fuel → invmod fuel a m = some x) ∧ toNat x < toNat m ∧
      (toNat a * toNat x) % toNat m = 1 := by
  have ha : toNat a ≠ 0 := by
    intro ha
    rw [ha, Nat.coprime_zero_left] at hcoprime
    omega
  have hstart : ∀ fuel, invmod fuel a m =
      if (UintOps.getMsb m).toNat ≥ 2 * UintOps.length β - 1 then
        (unsafeInvmod fuel (ofBase a) (ofBase m)).map Uintx.lo
      else unsafeInvmod fuel a m := by
    intro fuel
    rw [invmod, if_neg (by rw [eq_iff, toNat_ofUint64]; exact ha),
      if_neg (by
        rw [eq_iff, toNat_ofUint64, show (0 : Word).toNat = 0 from rfl]
        omega)]
  have hlength : 64 ≤ UintOps.length (Uintx β) := sixtyFour_le_length
  change 64 ≤ 2 * UintOps.length β at hlength
  by_cases htop : (UintOps.getMsb m).toNat ≥ 2 * UintOps.length β - 1
  · have hmlt := toNat_lt m
    have hwide : 2 * toNat (ofBase m) < 2 ^ UintOps.length (Uintx (Uintx β)) := by
      have hpos : 2 * 1 ≤ 2 ^ UintOps.length (Uintx β) :=
        Nat.pow_le_pow_right (n := 2) (by norm_num) (show 1 ≤ 2 * UintOps.length β by omega)
      rw [toNat_ofBase, two_pow_length]
      exact (Nat.mul_lt_mul_of_pos_left hmlt Nat.two_pos).trans_le (Nat.mul_le_mul_right _ hpos)
    obtain ⟨n, x, hloop, hlt, hinv⟩ := unsafeInvmod_eq (a := ofBase a)
      (by rw [toNat_ofBase]; exact hm) hwide (by rw [toNat_ofBase, toNat_ofBase]; exact hcoprime)
    rw [toNat_ofBase] at hlt hinv
    rw [toNat_ofBase] at hinv
    have hlo : toNat x.lo = toNat x := by
      have hhi : toNat x.hi = 0 := by
        by_contra hne
        rw [toNat_eq] at hlt
        have := Nat.mul_le_mul_left (2 ^ UintOps.length (Uintx β)) (Nat.pos_of_ne_zero hne)
        omega
      rw [toNat_eq x, hhi, mul_zero, add_zero]
    refine ⟨n, x.lo, fun fuel hfuel => ?_, hlo ▸ hlt, hlo ▸ hinv⟩
    rw [hstart, if_pos htop, hloop fuel hfuel, Option.map_some]
  · have hlt : 2 * toNat m < 2 ^ UintOps.length (Uintx β) := by
      rw [toNat_getMsb] at htop
      have hlog : toNat m < 2 ^ (2 * UintOps.length β - 1) :=
        (Nat.log2_lt (by omega)).1 (by omega)
      change 2 * toNat m < 2 ^ (2 * UintOps.length β)
      rw [show 2 * UintOps.length β = 2 * UintOps.length β - 1 + 1 by omega, pow_succ]
      omega
    obtain ⟨n, x, hloop, hrest⟩ := unsafeInvmod_eq hm hlt hcoprime
    exact ⟨n, x, fun fuel hfuel => by rw [hstart, if_neg htop, hloop fuel hfuel], hrest⟩

end Uintx

namespace Uint256

/-! ### Powers -/

theorem toNat_powLoop (a exponent : Uint256) : ∀ (i : ℕ) {accumulator : Uint256}, i ≤ 256 →
    accumulator.toNat = a.toNat ^ (exponent.toNat / 2 ^ i) % 2 ^ 256 →
    (powLoop a exponent i accumulator).toNat = a.toNat ^ exponent.toNat % 2 ^ 256 := by
  intro i
  induction i with
  | zero =>
    intro accumulator _ h
    rw [powLoop, h, pow_zero, Nat.div_one]
  | succ i ih =>
    intro accumulator hi h
    have hindex : (BitVec.ofNat 64 i).toNat = i := by
      rw [BitVec.toNat_ofNat, Nat.mod_eq_of_lt (by omega)]
    have hbit : exponent.getBit (BitVec.ofNat 64 i) = exponent.toNat.testBit i := by
      rw [getBit_eq _ _ (by rw [hindex]; omega), hindex]
    have hsplit : exponent.toNat / 2 ^ i =
        2 * (exponent.toNat / 2 ^ (i + 1)) + (exponent.toNat.testBit i).toNat := by
      rw [Nat.testBit_eq_decide_div_mod_eq, pow_succ, ← Nat.div_div_eq_div_mul]
      by_cases hodd : exponent.toNat / 2 ^ i % 2 = 1
      · rw [decide_eq_true hodd]
        simp only [Bool.toNat_true]
        omega
      · rw [decide_eq_false hodd]
        simp only [Bool.toNat_false]
        omega
    rw [powLoop]
    refine ih (by omega) ?_
    rw [hbit, hsplit]
    generalize exponent.toNat / 2 ^ (i + 1) = half at *
    cases exponent.toNat.testBit i with
    | false =>
      rw [if_neg Bool.false_ne_true, toNat_mul, h, Bool.toNat_false, add_zero, ← Nat.mul_mod,
        ← pow_add, two_mul]
    | true =>
      rw [if_pos rfl, toNat_mul, toNat_mul, h, Bool.toNat_true, pow_add, pow_one, two_mul, pow_add,
        ← Nat.mul_mod, Nat.mod_mul_mod]

theorem divmod_eq (a : Uint256) {b : Uint256} (hb : b.toNat ≠ 0) :
    ∃ q r, a.divmod b = some (q, r) ∧ q.toNat * b.toNat + r.toNat = a.toNat ∧
      r.toNat < b.toNat := by
  have hzero : (ofUint64 0).toNat = 0 := rfl
  rw [divmod]
  by_cases ha : a.toNat = 0
  · rw [if_pos (by rw [Bool.or_eq_true]; exact .inl ((eq_iff _ _).2 ha))]
    exact ⟨_, _, rfl, by rw [hzero, ha, zero_mul], Nat.pos_of_ne_zero hb⟩
  · rw [if_neg (by
      rw [Bool.or_eq_true, eq_iff, eq_iff]
      exact not_or.2 ⟨ha, hb⟩)]
    exact LawfulUint.longDivision_eq a hb

theorem toNat_pow (a exponent : Uint256) :
    (a.pow exponent).toNat = a.toNat ^ exponent.toNat % 2 ^ 256 := by
  rw [pow]
  by_cases hzero : exponent.toNat = 0
  · rw [if_pos ((eq_iff _ _).2 hzero), hzero]
    rfl
  rw [if_neg (by rw [eq_iff]; exact hzero)]
  by_cases ha : a.toNat = 0
  · rw [if_pos ((eq_iff _ _).2 ha), ha, zero_pow hzero]
    rfl
  rw [if_neg (by rw [eq_iff]; exact ha), toNat_getMsb]
  have hlog : Nat.log2 exponent.toNat < 256 := (Nat.log2_lt hzero).2 exponent.toNat_lt
  refine toNat_powLoop a exponent _ (by omega) ?_
  have htop : exponent.toNat / 2 ^ Nat.log2 exponent.toNat = 1 :=
    Nat.div_eq_of_lt_le (by rw [one_mul]; exact Nat.log2_self_le hzero)
      (by rw [show (1 + 1) * 2 ^ Nat.log2 exponent.toNat = 2 ^ (Nat.log2 exponent.toNat + 1) by
            rw [pow_succ]; ring]
          exact Nat.lt_log2_self)
  rw [htop, pow_one, Nat.mod_eq_of_lt a.toNat_lt]

end Uint256

namespace Uint

open UintOps UintValue LawfulUint

def divmod : (n : ℕ) → Uint n → Uint n → Option (Uint n × Uint n)
  | 0 => Uint256.divmod
  | n + 1 => fun a b : Uintx (Uint n) => Uintx.divmod a b

structure ComputesModulo (α : Type) [UintOps α] [UintValue α] : Prop where
  add : ∀ a b : α, (toNat (UintOps.add a b) : ℤ) = (toNat a + toNat b) % 2 ^ UintOps.length α
  sub : ∀ a b : α, (toNat (UintOps.sub a b) : ℤ) = (toNat a - toNat b) % 2 ^ UintOps.length α
  neg : ∀ a : α, (toNat (UintOps.neg a) : ℤ) = -(toNat a : ℤ) % 2 ^ UintOps.length α
  mul : ∀ a b : α, (toNat (UintOps.mul a b) : ℤ) = toNat a * toNat b % 2 ^ UintOps.length α
  mulExtended : ∀ a b : α, toNat (UintOps.mulExtended a b).1 +
    2 ^ UintOps.length α * toNat (UintOps.mulExtended a b).2 = toNat a * toNat b
  eq : ∀ a b : α, UintOps.eq a b = true ↔ toNat a = toNat b
  gt : ∀ a b : α, UintOps.gt a b = true ↔ toNat b < toNat a
  ge : ∀ a b : α, UintOps.ge a b = true ↔ toNat b ≤ toNat a
  lt : ∀ a b : α, UintOps.lt a b = true ↔ toNat a < toNat b
  le : ∀ a b : α, UintOps.le a b = true ↔ toNat a ≤ toNat b

theorem computesModulo {α : Type} [UintOps α] [UintValue α] [LawfulUint α] : ComputesModulo α := by
  have hsub : ∀ a b : α, (toNat (UintOps.sub a b) : ℤ) =
      (toNat a - toNat b) % 2 ^ UintOps.length α := by
    intro a b
    have hlt := toNat_lt (UintOps.sub a b)
    have hwraps : Uintx.Wraps (UintOps.sub a b) (toNat a - toNat b) :=
      Uintx.Wraps.sub (Int.ModEq.refl _) (Int.ModEq.refl _)
    rw [← hwraps.eq, Int.emod_eq_of_lt (Int.natCast_nonneg _) (by exact_mod_cast hlt)]
  refine ⟨fun a b => ?_, hsub, fun a => ?_, fun a b => ?_, mulExtended_eq,
    eq_iff, gt_iff, ge_iff, lt_iff, le_iff⟩
  · rw [toNat_add]
    push_cast
    rfl
  · rw [UintOps.neg, hsub, toNat_ofUint64]
    simp
  · rw [toNat_mul]
    push_cast
    rfl

theorem divmod_eq {n : ℕ} (h : 8 + n < 64) (a : Uint n) {b : Uint n} (hb : toNat b ≠ 0) :
    ∃ q r, divmod n a b = some (q, r) ∧ toNat q * toNat b + toNat r = toNat a ∧
      toNat r < toNat b := by
  cases n with
  | zero => exact Uint256.divmod_eq a hb
  | succ n =>
    have hlawful : LawfulUint (Uintx (Uint n)) := lawful h
    exact Uintx.divmod_eq a hb

/-- **All types of the tower compute modulo the power of two**: arithmetic and the order, division,
powers of `uint256_t`, and inverses for every modulus.  A length is a `size_t`, that of the type in
which an inverse may be computed too. -/
theorem wide_arithmetic : (∀ n, 8 + n < 64 → ComputesModulo (Uint n) ∧
      ∀ a b : Uint n, toNat b ≠ 0 → ∃ q r, divmod n a b = some (q, r) ∧
        toNat q * toNat b + toNat r = toNat a ∧ toNat r < toNat b) ∧
    (∀ a exponent : Uint256, (a.pow exponent).toNat = a.toNat ^ exponent.toNat % 2 ^ 256) ∧
    ∀ n, 8 + (n + 2) < 64 → ∀ a m : Uintx (Uint n), 1 < toNat m →
      (toNat a).Coprime (toNat m) → ∃ fuel x,
        (∀ fuel', fuel < fuel' → Uintx.invmod fuel' a m = some x) ∧ toNat x < toNat m ∧
          (toNat a * toNat x) % toNat m = 1 ∧
          ∀ y < toNat m, (toNat a * y) % toNat m = 1 → y = toNat x := by
  refine ⟨fun n hn => ?_, Uint256.toNat_pow, fun n hn a m hm hcoprime => ?_⟩
  · have hlawful : LawfulUint (Uint n) := lawful hn
    exact ⟨computesModulo, fun a b hb => divmod_eq hn a hb⟩
  · have hbase : LawfulUint (Uint n) := lawful (by omega)
    have hdouble : LawfulUint (Uintx (Uint n)) := lawful (n := n + 1) (by omega)
    have hwide : LawfulUint (Uintx (Uintx (Uint n))) := lawful (n := n + 2) hn
    obtain ⟨fuel, x, hloop, hlt, hinv⟩ := Uintx.invmod_eq hm hcoprime
    refine ⟨fuel, x, hloop, hlt, hinv, fun y hy hinv' => ?_⟩
    have hmod : toNat a * y ≡ toNat a * toNat x [MOD toNat m] := hinv'.trans hinv.symm
    have hcancel := Nat.ModEq.cancel_left_of_coprime (by rwa [Nat.gcd_comm]) hmod
    rwa [Nat.ModEq, Nat.mod_eq_of_lt hy, Nat.mod_eq_of_lt hlt] at hcancel

/-- For `uint512_t`: the inverse of 3 modulo 7 is 5, and 17 is 3 times 5 and 2. -/
theorem wide_arithmetic_small : (∃ q r, divmod 1 (ofUint64 17 : Uint 1) (ofUint64 5) = some (q, r) ∧
      toNat q * toNat (ofUint64 5 : Uint 1) + toNat r = toNat (ofUint64 17 : Uint 1) ∧
      toNat r < toNat (ofUint64 5 : Uint 1)) ∧ ∃ fuel x, (∀ fuel', fuel < fuel' →
        Uintx.invmod fuel' (ofUint64 3 : Uintx (Uint 0)) (ofUint64 7) = some x) ∧
      toNat x < toNat (ofUint64 7 : Uintx (Uint 0)) ∧
      (toNat (ofUint64 3 : Uintx (Uint 0)) * toNat x) % toNat (ofUint64 7 : Uintx (Uint 0)) = 1 ∧
      ∀ y < toNat (ofUint64 7 : Uintx (Uint 0)), (toNat (ofUint64 3 : Uintx (Uint 0)) * y) %
        toNat (ofUint64 7 : Uintx (Uint 0)) = 1 → y = toNat x :=
  ⟨(wide_arithmetic.1 1 (by decide)).2 _ _ (by decide),
    wide_arithmetic.2.2 0 (by decide) _ _ (by decide) (by decide)⟩

end Uint
