/-
**The scalar field of the AVM circuit.**
-/

import Aztec.PublicKernel
import Aztec.LucasCertificate

abbrev FF := ZMod Kernel.fieldModulus

namespace FF

/-! ### The modulus -/

theorem prime_of_passes {p : ℕ} (a : ℕ) (factors : List (ℕ × ℕ))
    (h : Lucas.passes p a factors = true) (hprime : factors.Forall fun f => f.1.Prime) : p.Prime :=
  Lucas.prime_of_passes a factors (List.forall_iff_forall_mem.1 hprime) h

theorem prime_405928799 : Nat.Prime 405928799 := by
  refine prime_of_passes 22 [(2, 1), (11, 1), (3691, 1), (4999, 1)] (by decide) ?_
  exact ⟨by norm_num, by norm_num, by norm_num, by norm_num⟩

theorem prime_1670836401704629 : Nat.Prime 1670836401704629 := by
  have h12048837557 : Nat.Prime 12048837557 := by
    refine prime_of_passes 2 [(2, 2), (7, 2), (661, 1), (93001, 1)] (by decide +kernel) ?_
    exact ⟨by norm_num, by norm_num, by norm_num, by norm_num⟩
  have h5156902474397 : Nat.Prime 5156902474397 := by
    refine prime_of_passes 2 [(2, 2), (107, 1), (12048837557, 1)] (by decide +kernel) ?_
    exact ⟨by norm_num, by norm_num, h12048837557⟩
  refine prime_of_passes 2 [(2, 2), (3, 4), (5156902474397, 1)] (by decide +kernel) ?_
  exact ⟨by norm_num, by norm_num, h5156902474397⟩

theorem prime_13818364434197438864469338081 : Nat.Prime 13818364434197438864469338081 := by
  have h639533339 : Nat.Prime 639533339 := by
    refine prime_of_passes 2 [(2, 1), (229, 1), (853, 1), (1637, 1)] (by decide) ?_
    exact ⟨by norm_num, by norm_num, by norm_num, by norm_num⟩
  have h65865678001877903 : Nat.Prime 65865678001877903 := by
    refine prime_of_passes 5 [(2, 1), (83, 1), (379, 1), (1637, 1), (639533339, 1)]
      (by decide +kernel) ?_
    exact ⟨by norm_num, by norm_num, by norm_num, by norm_num, h639533339⟩
  refine prime_of_passes 3 [(2, 5), (5, 1), (823, 1), (1593227, 1), (65865678001877903, 1)]
    (by decide +kernel) ?_
  exact ⟨by norm_num, by norm_num, by norm_num, by norm_num, h65865678001877903⟩

theorem fieldModulus_prime : Nat.Prime Kernel.fieldModulus := by
  refine prime_of_passes 5 [(2, 28), (3, 2), (13, 1), (29, 1), (983, 1), (11003, 1),
    (237073, 1), (405928799, 1), (1670836401704629, 1), (13818364434197438864469338081, 1)]
    (by decide +kernel) ?_
  exact ⟨by norm_num, by norm_num, by norm_num, by norm_num, by norm_num, by norm_num,
    by norm_num, prime_405928799, prime_1670836401704629, prime_13818364434197438864469338081⟩

instance : Fact (Nat.Prime Kernel.fieldModulus) := ⟨fieldModulus_prime⟩

theorem lt_fieldModulus {n : ℕ} (h : n < 2 ^ 253) : n < Kernel.fieldModulus :=
  h.trans (by decide)

/-- The conversion `uint128_t{ a }` keeps the low limbs. -/
def uint128 (a : FF) : ℕ := a.val % 2 ^ 128

def ofBool (flag : Bool) : FF := flag.toNat

@[simp] theorem ofBool_true : ofBool true = 1 := by simp [ofBool]

@[simp] theorem ofBool_false : ofBool false = 0 := by simp [ofBool]

theorem natCast_injOn {m n : ℕ} (hm : m < Kernel.fieldModulus) (hn : n < Kernel.fieldModulus)
    (h : (m : FF) = n) : m = n := by
  rw [ZMod.natCast_eq_natCast_iff', Nat.mod_eq_of_lt hm, Nat.mod_eq_of_lt hn] at h
  exact h

end FF
