/-
**Primality from the factors of `p - 1`.**

Lucas' test with the powers computed by repeated squaring, so that the kernel can check it for
primes of hundreds of bits.
-/

import Mathlib.NumberTheory.LucasPrimality
import Mathlib.Data.List.Prime

namespace Lucas

/-- `a ^ e` modulo `m` for an exponent of at most `k` binary digits. -/
def powMod (m a : ℕ) : ℕ → ℕ → ℕ
  | 0, _ => 1 % m
  | k + 1, e => a ^ (e % 2) * powMod m a k (e / 2) ^ 2 % m

theorem powMod_eq (m a : ℕ) {k e : ℕ} (he : e < 2 ^ k) : powMod m a k e = a ^ e % m := by
  induction k generalizing e with
  | zero =>
    have hzero : e = 0 := by simpa using he
    simp [powMod, hzero]
  | succ k ih =>
    have hhalf : e / 2 < 2 ^ k := by rw [pow_succ] at he; omega
    have hsplit : a ^ e = a ^ (e % 2) * (a ^ (e / 2)) ^ 2 := by
      rw [← pow_mul, ← pow_add, mul_comm, Nat.mod_add_div]
    rw [powMod, ih hhalf, hsplit, Nat.mul_mod, Nat.mul_mod (a ^ (e % 2)), ← Nat.pow_mod]

def digits (p : ℕ) : ℕ := p.log2 + 1

theorem lt_two_pow_digits (p : ℕ) : p < 2 ^ digits p := Nat.lt_log2_self

/-- Lucas' test of `p` with the base `a` and the prime powers `factors` of `p - 1`. -/
def passes (p a : ℕ) (factors : List (ℕ × ℕ)) : Bool :=
  2 ≤ p && (factors.map fun f => f.1 ^ f.2).prod == p - 1 &&
    powMod p a (digits p) (p - 1) == 1 &&
    factors.all fun f => powMod p a (digits p) ((p - 1) / f.1) != 1

theorem powMod_digits_eq_one_iff {p a e : ℕ} (hp : 2 ≤ p) (he : e ≤ p) :
    powMod p a (digits p) e = 1 ↔ (a : ZMod p) ^ e = 1 := by
  rw [powMod_eq p a (he.trans_lt (lt_two_pow_digits p)), ← Nat.cast_pow,
    ← Nat.cast_one (R := ZMod p),
    ZMod.natCast_eq_natCast_iff', Nat.mod_eq_of_lt (show 1 < p from hp)]

theorem prime_of_passes {p : ℕ} (a : ℕ) (factors : List (ℕ × ℕ))
    (hprime : ∀ f ∈ factors, f.1.Prime) (h : passes p a factors = true) : p.Prime := by
  simp only [passes, Bool.and_eq_true, decide_eq_true_eq, beq_iff_eq, List.all_eq_true,
    bne_iff_ne] at h
  obtain ⟨⟨⟨hp, hprod⟩, hone⟩, hne⟩ := h
  refine lucas_primality p a ((powMod_digits_eq_one_iff hp (Nat.sub_le p 1)).1 hone) ?_
  intro q hq hdvd hpow
  -- A prime divisor of `p - 1` divides one of the prime powers, hence is its base.
  rw [← hprod] at hdvd
  obtain ⟨m, hm, hqm⟩ := (Nat.Prime.prime hq).dvd_prod_iff.1 hdvd
  obtain ⟨f, hf, rfl⟩ := List.mem_map.1 hm
  have hqf : q = f.1 := (Nat.prime_dvd_prime_iff_eq hq (hprime f hf)).1 (hq.dvd_of_dvd_pow hqm)
  have hle : (p - 1) / q ≤ p := (Nat.div_le_self _ _).trans (Nat.sub_le p 1)
  exact hne f hf (hqf ▸ (powMod_digits_eq_one_iff hp hle).2 hpow)

end Lucas
