/-
**Nested frames that may be undone, and ledgers that cover their debts.**

A *frame* is a piece of execution whose effects are kept or undone as a whole when it ends: a
transaction, a call to another contract, a nested call of a virtual machine.  Frames nest, and the
states to go back to form a stack.

A *ledger* has two kinds of debts, each a function with natural values; a reserve covers them when
no finite selection of the debts adds up to more.
-/

import Mathlib.Tactic

namespace Transactions

/-! ### Frames -/

/-- The current state, and the state each open frame would go back to, the innermost first. -/
structure Framed (σ : Type) where
  current : σ
  saved : List σ

namespace Framed

variable {σ : Type}

/-- Opens a frame, whose body starts from `s`. -/
def enter (m : Framed σ) (s : σ) : Framed σ := ⟨s, m.current :: m.saved⟩

def update (m : Framed σ) (s : σ) : Framed σ := { m with current := s }

/-- Closes the innermost frame and keeps or undoes its effects. -/
def leave (m : Framed σ) (keep : Bool) : Framed σ :=
  match m.saved with
  | [] => m
  | s :: rest => ⟨if keep then m.current else s, rest⟩

/-- The current state and all saved ones satisfy `P`. -/
structure All (P : σ → Prop) (m : Framed σ) : Prop where
  current : P m.current
  saved : ∀ s ∈ m.saved, P s

variable {P : σ → Prop} {m : Framed σ}

theorem All.enter (h : All P m) {s : σ} (hs : P s) : All P (m.enter s) :=
  ⟨hs, List.forall_mem_cons.2 ⟨h.current, h.saved⟩⟩

theorem All.update (h : All P m) {s : σ} (hs : P s) : All P (m.update s) := ⟨hs, h.saved⟩

theorem All.leave (h : All P m) (keep : Bool) : All P (m.leave keep) := by
  unfold Framed.leave
  split
  · exact h
  · next s rest hsaved =>
    have hsaved : ∀ s' ∈ s :: rest, P s' := hsaved ▸ h.saved
    refine ⟨?_, fun s' hs' => hsaved s' (List.mem_cons_of_mem _ hs')⟩
    cases keep with
    | true => exact h.current
    | false => exact hsaved s List.mem_cons_self

end Framed

/-! ### Ledgers -/

section Covers

variable {α β : Type} {f : α → ℕ} {g : β → ℕ} {n n' : ℕ}

def Covers (n : ℕ) (f : α → ℕ) (g : β → ℕ) : Prop :=
  ∀ (s : Finset α) (t : Finset β), ∑ a ∈ s, f a + ∑ b ∈ t, g b ≤ n

theorem covers_zero (n : ℕ) : Covers n (fun _ : α => 0) (fun _ : β => 0) := by
  intro s t
  simp

theorem Covers.left_le (h : Covers n f g) (a : α) : f a ≤ n := by
  simpa using h {a} ∅

theorem Covers.right_le (h : Covers n f g) (b : β) : g b ≤ n := by
  simpa using h ∅ {b}

theorem sum_update_add [DecidableEq α] {s : Finset α} {a : α} (ha : a ∈ s) (f : α → ℕ) (v : ℕ) :
    ∑ x ∈ s, Function.update f a v x + f a = ∑ x ∈ s, f x + v := by
  rw [Finset.sum_update_of_mem ha, ← Finset.sum_sdiff (Finset.singleton_subset_iff.2 ha),
    Finset.sum_singleton]
  omega

theorem sum_update_le [DecidableEq α] (a : α) (s : Finset α) (f : α → ℕ) (v : ℕ) :
    ∑ x ∈ s, Function.update f a v x + f a ≤ ∑ x ∈ insert a s, f x + v := by
  rw [← sum_update_add (Finset.mem_insert_self a s) f v]
  exact Nat.add_le_add_right (Finset.sum_le_sum_of_subset (Finset.subset_insert a s)) _

theorem Covers.update_left [DecidableEq α] (h : Covers n f g) (a : α) {v : ℕ}
    (hn : n + v ≤ n' + f a) : Covers n' (Function.update f a v) g := by
  intro s t
  have hle := h (insert a s) t
  have hsum := sum_update_le a s f v
  omega

theorem Covers.update_right [DecidableEq β] (h : Covers n f g) (b : β) {v : ℕ}
    (hn : n + v ≤ n' + g b) : Covers n' f (Function.update g b v) := by
  intro s t
  have hle := h s (insert b t)
  have hsum := sum_update_le b t g v
  omega

end Covers

end Transactions
