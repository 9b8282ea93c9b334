/-
**Numbers as byte strings, most significant byte first.**
-/

import Mathlib.Tactic

namespace BigEndian

def read (bytes : List UInt8) : ℕ := bytes.foldl (fun n b => n * 256 + b.toNat) 0

/-- The last `size` bytes of a number. -/
def write : ℕ → ℕ → List UInt8
  | 0, _ => []
  | size + 1, n => write size (n / 256) ++ [UInt8.ofNat (n % 256)]

@[simp] theorem length_write (size n : ℕ) : (write size n).length = size := by
  induction size generalizing n with
  | zero => rfl
  | succ size ih => simp [write, ih]

@[simp] theorem read_nil : read [] = 0 := rfl

theorem read_concat (bytes : List UInt8) (b : UInt8) :
    read (bytes ++ [b]) = read bytes * 256 + b.toNat := by
  simp [read]

@[simp] theorem read_singleton (b : UInt8) : read [b] = b.toNat := by simp [read]

theorem read_write (size n : ℕ) : read (write size n) = n % 256 ^ size := by
  induction size generalizing n with
  | zero => simp [write, Nat.mod_one]
  | succ size ih =>
    rw [write, read_concat, ih, pow_succ, Nat.mul_comm (256 ^ size), Nat.mod_mul]
    have hbyte : (UInt8.ofNat (n % 256)).toNat = n % 256 := by
      rw [UInt8.toNat_ofNat']
      exact Nat.mod_eq_of_lt (Nat.mod_lt _ (by norm_num))
    omega

theorem write_read (bytes : List UInt8) : write bytes.length (read bytes) = bytes := by
  induction bytes using List.reverseRecOn with
  | nil => rfl
  | append_singleton bytes b ih =>
    have hb : b.toNat < 256 := b.toNat_lt
    have hdiv : (read bytes * 256 + b.toNat) / 256 = read bytes := by omega
    have hmod : (read bytes * 256 + b.toNat) % 256 = b.toNat := by omega
    rw [List.length_append, List.length_singleton, write, read_concat, hdiv, hmod, ih,
      UInt8.ofNat_toNat]

theorem read_lt (bytes : List UInt8) : read bytes < 256 ^ bytes.length := by
  have h := read_write bytes.length (read bytes)
  rw [write_read] at h
  rw [h]
  exact Nat.mod_lt _ (by positivity)

theorem read_append (high low : List UInt8) :
    read (high ++ low) = read high * 256 ^ low.length + read low := by
  induction low using List.reverseRecOn with
  | nil => simp
  | append_singleton low b ih =>
    rw [← List.append_assoc, read_concat, read_concat, ih, List.length_append,
      List.length_singleton, pow_succ]
    ring

theorem write_one {n : ℕ} (h : n < 256) : write 1 n = [UInt8.ofNat n] := by
  simp [write, Nat.mod_eq_of_lt h]

end BigEndian
