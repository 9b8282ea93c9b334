/-
**Computations on a state that may throw or run forever.**

An exception leaves the state as it was when it was thrown.  Properties of such computations are
stated as relations between the state before and the state after, whatever the outcome is.
-/

import Mathlib.Tactic

/-- A computation with a state, exceptions, and no result when it does not finish. -/
abbrev Stateful (ε σ : Type) := ExceptT ε (StateT σ Option)

namespace Stateful

variable {ε σ α β : Type}

def diverge : Stateful ε σ α := fun _ => none

def liftExcept (x : Except ε α) : Stateful ε σ α := fun s => some (x, s)

theorem bind_apply (m : Stateful ε σ α) (f : α → Stateful ε σ β) (s : σ) :
    (m >>= f) s = match m s with
      | none => none
      | some (.error e, s') => some (.error e, s')
      | some (.ok a, s') => f a s' := by
  change (m s).bind (fun p => (match p.1 with
    | .ok a => f a
    | .error e => (pure (.error e) : StateT σ Option (Except ε β))) p.2) = _
  cases m s with
  | none => rfl
  | some p =>
    obtain ⟨r, s'⟩ := p
    cases r <;> rfl

theorem bind_eq_some {m : Stateful ε σ α} {f : α → Stateful ε σ β} {s s' : σ} {r : Except ε β} :
    (m >>= f) s = some (r, s') ↔ (∃ e, m s = some (.error e, s') ∧ r = .error e) ∨
        ∃ a mid, m s = some (.ok a, mid) ∧ f a mid = some (r, s') := by
  rw [bind_apply]
  cases hm : m s with
  | none => simp
  | some p =>
    obtain ⟨x, mid⟩ := p
    cases x with
    | error e =>
      simp only [Option.some.injEq, Prod.mk.injEq, Except.error.injEq]
      grind
    | ok a => simp

theorem tryCatch_apply (m : Stateful ε σ α) (handler : ε → Stateful ε σ α) (s : σ) :
    (tryCatch m handler) s = match m s with
      | none => none
      | some (.error e, s') => handler e s'
      | some (.ok a, s') => some (.ok a, s') := by
  change (m s).bind (fun p => (match p.1 with
    | .ok a => (pure (.ok a) : StateT σ Option (Except ε α))
    | .error e => handler e) p.2) = _
  cases m s with
  | none => rfl
  | some p =>
    obtain ⟨r, s'⟩ := p
    cases r <;> rfl

@[simp] theorem pure_apply (a : α) (s : σ) : (pure a : Stateful ε σ α) s = some (.ok a, s) := rfl

@[simp] theorem throw_apply (e : ε) (s : σ) :
    (throw e : Stateful ε σ α) s = some (.error e, s) := rfl

@[simp] theorem get_apply (s : σ) : (get : Stateful ε σ σ) s = some (.ok s, s) := rfl

@[simp] theorem modify_apply (f : σ → σ) (s : σ) :
    (modify f : Stateful ε σ PUnit) s = some (.ok ⟨⟩, f s) := rfl

@[simp] theorem liftExcept_apply (x : Except ε α) (s : σ) : liftExcept x s = some (x, s) := rfl

@[simp] theorem diverge_apply (s : σ) : (diverge : Stateful ε σ α) s = none := rfl

/-! ### Relations that are kept -/

/-- Whatever the outcome is, the states before and after are related. -/
def Keeps (R : σ → σ → Prop) (m : Stateful ε σ α) : Prop :=
  ∀ s r s', m s = some (r, s') → R s s'

namespace Keeps

variable {R : σ → σ → Prop}

theorem diverge : Keeps R (diverge : Stateful ε σ α) := by
  intro s r s' h
  cases h

section Refl

variable [Std.Refl R]

theorem pure (a : α) : Keeps R (Pure.pure a : Stateful ε σ α) := by
  intro s r s' h
  cases h
  exact Std.Refl.refl s

theorem throw (e : ε) : Keeps R (MonadExcept.throw e : Stateful ε σ α) := by
  intro s r s' h
  cases h
  exact Std.Refl.refl s

theorem get : Keeps R (MonadState.get : Stateful ε σ σ) := by
  intro s r s' h
  cases h
  exact Std.Refl.refl s

theorem liftExcept (x : Except ε α) : Keeps R (Stateful.liftExcept x : Stateful ε σ α) := by
  intro s r s' h
  cases h
  exact Std.Refl.refl s

end Refl

theorem modify {f : σ → σ} (h : ∀ s, R s (f s)) : Keeps R (modify f : Stateful ε σ PUnit) := by
  intro s r s' heq
  cases heq
  exact h s

theorem bind [IsTrans σ R] {m : Stateful ε σ α} {f : α → Stateful ε σ β} (hm : Keeps R m)
    (hf : ∀ a, Keeps R (f a)) : Keeps R (m >>= f) := by
  intro s r s' h
  rcases bind_eq_some.1 h with ⟨e, hs, -⟩ | ⟨a, mid, hs, hmid⟩
  · exact hm s _ s' hs
  · exact IsTrans.trans _ _ _ (hm s _ mid hs) (hf a mid r s' hmid)

theorem tryCatch [IsTrans σ R] {m : Stateful ε σ α} {handler : ε → Stateful ε σ α}
    (hm : Keeps R m) (hh : ∀ e, Keeps R (handler e)) : Keeps R (tryCatch m handler) := by
  intro s r s' h
  rw [tryCatch_apply] at h
  cases hs : m s with
  | none =>
    rw [hs] at h
    cases h
  | some p =>
    obtain ⟨x, mid⟩ := p
    rw [hs] at h
    cases x with
    | error e => exact IsTrans.trans _ _ _ (hm s _ mid hs) (hh e mid r s' h)
    | ok a =>
      cases h
      exact hm s _ _ hs

end Keeps

end Stateful
