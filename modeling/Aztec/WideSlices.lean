/-
**Bits and slices of wide integers.**

`slice` shifts and masks.  For `uintx` the mask of all ones is chosen when the slice is as wide as
the base type, not as the integer, and then it masks nothing.
-/

import Aztec.Uintx

open UintOps UintValue LawfulUint

namespace LawfulUint

variable {α : Type} [UintOps α] [UintValue α] [LawfulUint α]

theorem toNat_neg_one : toNat (neg (ofUint64 1) : α) = 2 ^ length α - 1 := by
  have hpos : 1 < 2 ^ length α :=
    Nat.one_lt_two_pow (by have : 64 ≤ length α := sixtyFour_le_length; omega)
  rw [neg, toNat_sub, toNat_ofUint64, toNat_ofUint64, show (0 : Word).toNat = 0 from rfl,
    show (1 : Word).toNat = 1 from rfl, zero_add, Nat.mod_eq_of_lt (by omega)]

theorem toNat_mask {range : Word} (h : range.toNat ≤ length α) :
    toNat (sub (shl (ofUint64 1) range) (ofUint64 1) : α) = 2 ^ range.toNat - 1 := by
  have hone : toNat (ofUint64 1 : α) = 1 := toNat_ofUint64 1
  have hpos : 1 < 2 ^ length α :=
    Nat.one_lt_two_pow (by have : 64 ≤ length α := sixtyFour_le_length; omega)
  rcases h.eq_or_lt with heq | hlt
  · rw [toNat_sub, toNat_shl, hone, heq, one_mul, Nat.mod_self, zero_add,
      Nat.mod_eq_of_lt (by omega)]
  · have hshift : toNat (shl (ofUint64 1) range : α) = 2 ^ range.toNat := by
      rw [toNat_shl, hone, one_mul, Nat.mod_eq_of_lt (Nat.pow_lt_pow_right (by norm_num) hlt)]
    rw [toNat_sub_of_le (by rw [hshift, hone]; exact Nat.one_le_two_pow), hshift, hone]

end LawfulUint

namespace Uint256

theorem toNat_slice (v : Uint256) {start stop : Word} (hle : start.toNat ≤ stop.toNat)
    (hstop : stop.toNat ≤ 256) : (v.slice start stop).toNat =
      v.toNat / 2 ^ start.toNat % 2 ^ (stop.toNat - start.toNat) := by
  have hrange : (stop - start).toNat = stop.toNat - start.toNat := by
    rw [BitVec.toNat_sub]
    omega
  rw [slice, toNat_and, toNat_shr]
  by_cases hfull : stop - start = 256
  · have hwhole : stop.toNat - start.toNat = 256 := by rw [← hrange, hfull]; rfl
    have hmask : (neg (ofUint64 1) : Uint256).toNat = 2 ^ 256 - 1 :=
      (toNat_neg_one : UintValue.toNat (neg (UintOps.ofUint64 1) : Uint256) = _)
    rw [if_pos hfull, hmask, Nat.and_two_pow_sub_one_eq_mod, hwhole]
  · have hwidth : (stop - start).toNat ≤ length Uint256 := by
      rw [hrange]
      exact (Nat.sub_le _ _).trans hstop
    have hmask : (((ofUint64 1).shl (stop - start)).sub (ofUint64 1)).toNat =
        2 ^ (stop - start).toNat - 1 := toNat_mask hwidth
    rw [if_neg hfull, hmask, Nat.and_two_pow_sub_one_eq_mod, hrange]

theorem toNat_shrWide (v other : Uint256) :
    (v.shrWide other).toNat = v.toNat / 2 ^ other.toNat := by
  by_cases hsmall : other.toNat < 2 ^ 64
  · obtain ⟨s, rfl⟩ : ∃ s, other = ofUint64 s := ⟨other.data0, toNat_injective (by
      rw [toNat_ofUint64, toNat_eq]
      rw [toNat_eq] at hsmall
      omega)⟩
    rw [toNat_ofUint64]
    exact toNat_shr v s
  · have hlimbs : other.data1 ≠ 0 ∨ other.data2 ≠ 0 ∨ other.data3 ≠ 0 := by
      by_contra hzero
      simp only [not_or, not_not] at hzero
      rw [toNat_eq, hzero.1, hzero.2.1, hzero.2.2] at hsmall
      exact hsmall other.data0.isLt
    rw [shrWide, if_pos (.inr hlimbs), Nat.div_eq_of_lt]
    · rfl
    · exact v.toNat_lt.trans_le (Nat.pow_le_pow_right (by norm_num) (by omega))

theorem toNat_shlWide (v other : Uint256) :
    (v.shlWide other).toNat = v.toNat * 2 ^ other.toNat % 2 ^ 256 := by
  by_cases hsmall : other.toNat < 2 ^ 64
  · obtain ⟨s, rfl⟩ : ∃ s, other = ofUint64 s := ⟨other.data0, toNat_injective (by
      rw [toNat_ofUint64, toNat_eq]
      rw [toNat_eq] at hsmall
      omega)⟩
    rw [toNat_ofUint64]
    exact toNat_shl v s
  · have hlimbs : other.data1 ≠ 0 ∨ other.data2 ≠ 0 ∨ other.data3 ≠ 0 := by
      by_contra hzero
      simp only [not_or, not_not] at hzero
      rw [toNat_eq, hzero.1, hzero.2.1, hzero.2.2] at hsmall
      exact hsmall other.data0.isLt
    rw [shlWide, if_pos (.inr hlimbs)]
    exact (Nat.mod_eq_zero_of_dvd ((pow_dvd_pow 2 (by omega)).mul_left _)).symm

end Uint256

namespace Uintx

variable {β : Type} [UintOps β]

def slice (v : Uintx β) (start stop : Word) : Uintx β :=
  let range := stop - start
  let mask := if range.toNat = UintOps.length β then neg (UintOps.ofUint64 1)
    else UintOps.sub (UintOps.shl (UintOps.ofUint64 1) range) (UintOps.ofUint64 1)
  UintOps.and (UintOps.shr v start) mask

variable [UintValue β] [LawfulUint (Uintx β)]

theorem toNat_slice (v : Uintx β) {start stop : Word} (hle : start.toNat ≤ stop.toNat)
    (hstop : stop.toNat ≤ UintOps.length (Uintx β)) : toNat (v.slice start stop) =
      if stop.toNat - start.toNat = UintOps.length β then toNat v / 2 ^ start.toNat
      else toNat v / 2 ^ start.toNat % 2 ^ (stop.toNat - start.toNat) := by
  have hrange : (stop - start).toNat = stop.toNat - start.toNat := by
    rw [BitVec.toNat_sub]
    have := stop.isLt
    omega
  have hshift : toNat v / 2 ^ start.toNat < 2 ^ UintOps.length (Uintx β) :=
    (Nat.div_le_self _ _).trans_lt (LawfulUint.toNat_lt v)
  rw [slice, LawfulUint.toNat_and, LawfulUint.toNat_shr, hrange]
  by_cases hbase : stop.toNat - start.toNat = UintOps.length β
  · rw [if_pos hbase, if_pos hbase, toNat_neg_one, Nat.and_two_pow_sub_one_eq_mod,
      Nat.mod_eq_of_lt hshift]
  · rw [if_neg hbase, if_neg hbase, toNat_mask (by rw [hrange]; omega),
      Nat.and_two_pow_sub_one_eq_mod, hrange]

end Uintx

namespace Uint

def slice : (n : ℕ) → Uint n → Word → Word → Uint n
  | 0 => Uint256.slice
  | n + 1 => fun v : Uintx (Uint n) => Uintx.slice v

/-- What the operations on bits have to give.  `uint256_t` is shifted by another one. -/
structure BitsRight (n : ℕ) (v : Uint n) (start stop s : Word) : Prop where
  slice : toNat (slice n v start stop) =
    toNat v / 2 ^ start.toNat % 2 ^ (stop.toNat - start.toNat)
  shr : toNat (shr v s) = toNat v / 2 ^ s.toNat
  shl : toNat (shl v s) = toNat v * 2 ^ s.toNat % 2 ^ length (Uint n)
  shrWide : ∀ w other : Uint256, (w.shrWide other).toNat = w.toNat / 2 ^ other.toNat
  shlWide : ∀ w other : Uint256,
    (w.shlWide other).toNat = w.toNat * 2 ^ other.toNat % 2 ^ 256
  getMsb : toNat v ≠ 0 → (getMsb v).toNat = Nat.log 2 (toNat v)
  getBit : ∀ i : Word, i.toNat < length (Uint n) → getBit v i = (toNat v).testBit i.toNat

/-- The slice is not as wide as the base type, or the number ends within it. -/
def Sliceable : (n : ℕ) → Uint n → Word → Word → Prop
  | 0, _, _, _ => True
  | n + 1, v, start, stop =>
    stop.toNat - start.toNat ≠ length (Uint n) ∨ toNat (v : Uint (n + 1)) < 2 ^ stop.toNat

/-- **The operations on bits are exact where the number can be sliced so.** -/
theorem bits_iff {n : ℕ} (hn : 8 + n < 64) (v : Uint n) {start stop : Word} (s : Word)
    (hle : start.toNat ≤ stop.toNat) (hstop : stop.toNat ≤ length (Uint n)) :
    BitsRight n v start stop s ↔ Sliceable n v start stop := by
  have hlawful : LawfulUint (Uint n) := lawful hn
  suffices hslice : toNat (slice n v start stop) =
      toNat v / 2 ^ start.toNat % 2 ^ (stop.toNat - start.toNat) ↔ Sliceable n v start stop by
    refine ⟨fun h => hslice.1 h.slice, fun h => ⟨hslice.2 h, toNat_shr v s, toNat_shl v s,
      Uint256.toNat_shrWide, Uint256.toNat_shlWide, fun _ => ?_, fun i hi => getBit_eq v i hi⟩⟩
    rw [toNat_getMsb, Nat.log2_eq_log_two]
  cases n with
  | zero => exact iff_of_true (Uint256.toNat_slice v hle hstop) trivial
  | succ n =>
    have hdouble : LawfulUint (Uintx (Uint n)) := hlawful
    have hslice := Uintx.toNat_slice v hle hstop
    have hpow : 2 ^ stop.toNat = 2 ^ start.toNat * 2 ^ (stop.toNat - start.toNat) := by
      rw [← pow_add, Nat.add_sub_cancel' hle]
    refine (Eq.congr_left hslice).trans ?_
    by_cases hbase : stop.toNat - start.toNat = length (Uint n)
    · rw [if_pos hbase]
      refine Iff.trans ?_ (or_iff_right (not_not.2 hbase)).symm
      rw [hpow, mul_comm, ← Nat.div_lt_iff_lt_mul (Nat.two_pow_pos _)]
      exact ⟨fun h => h ▸ Nat.mod_lt _ (Nat.two_pow_pos _), fun h => (Nat.mod_eq_of_lt h).symm⟩
    · rw [if_neg hbase]
      exact iff_of_true rfl (.inl hbase)

/-- The upper half of a `uint512_t`. -/
theorem bits_iff_upper : BitsRight 1 (neg (ofUint64 1)) 256 512 64 ↔
    Sliceable 1 (neg (ofUint64 1)) 256 512 :=
  bits_iff (by decide) _ 64 (by decide) (by decide)

/-- The lower half of a `uint512_t` is not cut off. -/
theorem not_bitsRight : ¬∀ (v : Uint 1) (start stop s : Word), start.toNat ≤ stop.toNat →
    stop.toNat ≤ length (Uint 1) → BitsRight 1 v start stop s := by
  intro h
  have hslice := (h (neg (ofUint64 1)) 0 256 0 (by decide) (by decide)).slice
  revert hslice
  decide

end Uint
