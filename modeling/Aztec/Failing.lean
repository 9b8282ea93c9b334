/-
**Computations that may fail, and the rules for their loops.**

A circuit that asserts, a contract that reverts and a function that throws are all computations in
`Except ε`.  This file has the inversion of a sequence of two of them, and the rules that carry an
invariant through a loop.
-/

import Mathlib.Tactic

open List

namespace Failing

variable {ε α σ τ : Type}

@[simp] theorem pure_eq_ok {s t : σ} : (pure s : Except ε σ) = .ok t ↔ s = t := by
  simp [pure, Except.pure]

/-- A sequence of two computations succeeds when both do. -/
theorem bind_eq_ok {x : Except ε σ} {f : σ → Except ε τ} {t : τ} :
    x >>= f = .ok t ↔ ∃ s, x = .ok s ∧ f s = .ok t := by
  cases x with
  | error e => simp [bind, Except.bind]
  | ok s => simp [bind, Except.bind]

variable {l : List α} {f : σ → α → Except ε σ} {s s' : σ} {n : ℕ}

/-- A loop of checks succeeds when every check does. -/
theorem forM_eq_ok {f : α → Except ε Unit} : l.forM f = .ok () ↔ ∀ a ∈ l, f a = .ok () := by
  induction l with
  | nil => simp [List.forM, pure, Except.pure]
  | cons a l ih =>
    rw [List.forall_mem_cons, ← ih]
    constructor
    · intro h
      obtain ⟨u, ha, hl⟩ := bind_eq_ok.1 h
      exact ⟨ha, hl⟩
    · rintro ⟨ha, hl⟩
      exact bind_eq_ok.2 ⟨(), ha, hl⟩

/-- A function that succeeds on every element of a list can be mapped over it. -/
theorem mapM_total {β : Type} {f : α → Except ε β} (h : ∀ a ∈ l, ∃ b, f a = .ok b) :
    ∃ bs, l.mapM f = .ok bs := by
  induction l with
  | nil => exact ⟨[], rfl⟩
  | cons a l ih =>
    obtain ⟨b, hb⟩ := h a mem_cons_self
    obtain ⟨bs, hbs⟩ := ih fun a' ha' => h a' (mem_cons_of_mem _ ha')
    refine ⟨b :: bs, ?_⟩
    rw [mapM_cons]
    exact bind_eq_ok.2 ⟨b, hb, bind_eq_ok.2 ⟨bs, hbs, rfl⟩⟩

/-- A function that fails on a list fails on an element of it. -/
theorem mapM_eq_error {β : Type} {f : α → Except ε β} {e : ε} (h : l.mapM f = .error e) :
    ∃ a ∈ l, f a = .error e := by
  induction l with
  | nil => cases h
  | cons a l ih =>
    rw [mapM_cons] at h
    cases ha : f a with
    | error e' =>
      rw [ha] at h
      cases h
      exact ⟨a, mem_cons_self, ha⟩
    | ok b =>
      cases hl : l.mapM f with
      | error e' =>
        rw [ha, hl] at h
        cases h
        obtain ⟨a', ha', hfail⟩ := ih hl
        exact ⟨a', mem_cons_of_mem _ ha', hfail⟩
      | ok bs =>
        rw [ha, hl] at h
        cases h

/-- **The invariant rule**: what holds initially and is preserved by every turn of the loop that
succeeds holds of the result.  The invariant may speak of the part of the list gone through. -/
theorem foldlM_invariant (P : List α → σ → Prop)
    (hstep : ∀ before a s s', P before s → f s a = .ok s' → P (before ++ [a]) s') (hs : P [] s)
    (h : l.foldlM f s = .ok s') : P l s' := by
  induction l using reverseRecOn generalizing s' with
  | nil =>
    simp only [foldlM_nil, pure_eq_ok] at h
    exact h ▸ hs
  | append_singleton l a ih =>
    rw [foldlM_append, bind_eq_ok] at h
    obtain ⟨mid, hmid, h⟩ := h
    simp only [foldlM_cons, foldlM_nil, bind_pure] at h
    exact hstep l a mid s' (ih hmid) h

section

variable {f : σ → α → Except ε σ} (P : List α → σ → Prop) {l : List α} {s : σ} (hs : P [] s)
include P hs

theorem foldlM_cases (hstep : ∀ before a after s s', l = before ++ a :: after → P before s →
      f s a = .ok s' → P (before ++ [a]) s') : (∃ s', l.foldlM f s = .ok s' ∧ P l s') ∨
      ∃ before a after s' e, l = before ++ a :: after ∧ P before s' ∧ f s' a = .error e ∧
        l.foldlM f s = .error e := by
  induction l using reverseRecOn with
  | nil => exact .inl ⟨s, rfl, hs⟩
  | append_singleton l a ih =>
    rcases ih fun before b after s s' hl => hstep before b (after ++ [a]) s s' (by simp [hl])
      with ⟨mid, hmid, hP⟩ | ⟨before, b, after, mid, e, rfl, hP, hfail, hstop⟩
    · have hlast : (l ++ [a]).foldlM f s = f mid a := by
        rw [foldlM_append, hmid]
        cases hturn : f mid a with
        | error e => simp [bind, Except.bind, hturn]
        | ok s' => simp [bind, Except.bind, hturn, pure, Except.pure]
      rw [hlast]
      cases hturn : f mid a with
      | error e => exact .inr ⟨l, a, [], mid, e, rfl, hP, hturn, rfl⟩
      | ok s' => exact .inl ⟨s', rfl, hstep l a [] mid s' rfl hP hturn⟩
    · refine .inr ⟨before, b, after ++ [a], mid, e, by simp, hP, hfail, ?_⟩
      rw [foldlM_append, hstop]
      rfl

theorem foldlM_total (hstep : ∀ before a after s, l = before ++ a :: after → P before s →
      ∃ s', f s a = .ok s' ∧ P (before ++ [a]) s') : ∃ s', l.foldlM f s = .ok s' ∧ P l s' := by
  have hpreserved : ∀ before a after s s', l = before ++ a :: after → P before s →
      f s a = .ok s' → P (before ++ [a]) s' := by
    intro before a after s s' hl hP hturn
    obtain ⟨s'', hturn', hP'⟩ := hstep before a after s hl hP
    rw [hturn, Except.ok.injEq] at hturn'
    exact hturn' ▸ hP'
  rcases foldlM_cases P hs hpreserved with h | ⟨before, a, after, s', e, hl, hP, hfail, -⟩
  · exact h
  · obtain ⟨s'', hturn, -⟩ := hstep before a after s' hl hP
    rw [hfail] at hturn
    cases hturn

end

/-- The rule for an invariant of the state alone. -/
theorem foldlM_preserves (P : σ → Prop) (hstep : ∀ a s s', P s → f s a = .ok s' → P s') (hs : P s)
    (h : l.foldlM f s = .ok s') : P s' :=
  foldlM_invariant (fun _ => P) (fun _ => hstep) hs h

/-! ### Loops that count -/

variable (P : ℕ → σ → Prop)

/-- A counting loop succeeds when each of its turns does, and establishes what they establish. -/
theorem foldlM_range_total {f : σ → ℕ → Except ε σ} (hs : P 0 s)
    (hstep : ∀ i < n, ∀ s, P i s → ∃ s', f s i = .ok s' ∧ P (i + 1) s') :
    ∃ s', (range n).foldlM f s = .ok s' ∧ P n s' := by
  induction n with
  | zero => exact ⟨s, by simp [pure, Except.pure], hs⟩
  | succ n ih =>
    obtain ⟨mid, hmid, hP⟩ := ih fun i hi => hstep i (by omega)
    obtain ⟨s', hs', hP'⟩ := hstep n n.lt_succ_self mid hP
    refine ⟨s', ?_, hP'⟩
    rw [range_succ, foldlM_append, hmid]
    simp [bind, Except.bind, hs', pure, Except.pure]

theorem foldlM_finRange_eq (f : σ → Fin n → Except ε σ) (s : σ) : (finRange n).foldlM f s =
      (range n).foldlM (fun s i => if h : i < n then f s ⟨i, h⟩ else .ok s) s := by
  rw [← map_coe_finRange_eq_range, foldlM_map]
  congr 1
  funext s i
  simp

variable {f : σ → Fin n → Except ε σ}

/-- The invariant rule for a loop over the places of an array. -/
theorem foldlM_finRange_invariant (hs : P 0 s)
    (hstep : ∀ i s s', P i.1 s → f s i = .ok s' → P (i + 1) s')
    (h : (finRange n).foldlM f s = .ok s') : P n s' := by
  rw [foldlM_finRange_eq] at h
  suffices ∀ m ≤ n, ∀ s', (range m).foldlM
      (fun s i => if h : i < n then f s ⟨i, h⟩ else .ok s) s = .ok s' → P m s' from
    this n le_rfl s' h
  intro m
  induction m with
  | zero =>
    intro _ s' h
    simp only [range_zero, foldlM_nil, pure_eq_ok] at h
    exact h ▸ hs
  | succ m ih =>
    intro hm s' h
    rw [range_succ, foldlM_append, bind_eq_ok] at h
    obtain ⟨mid, hmid, h⟩ := h
    simp only [foldlM_cons, foldlM_nil, bind_pure, dif_pos (by omega : m < n)] at h
    exact hstep ⟨m, by omega⟩ mid s' (ih (by omega) mid hmid) h

/-- The rule for the success of a loop over the places of an array. -/
theorem foldlM_finRange_total (hs : P 0 s)
    (hstep : ∀ i s, P i.1 s → ∃ s', f s i = .ok s' ∧ P (i + 1) s') :
    ∃ s', (finRange n).foldlM f s = .ok s' ∧ P n s' := by
  rw [foldlM_finRange_eq]
  refine foldlM_range_total P hs fun i hi s hP => ?_
  obtain ⟨s', hs', hP'⟩ := hstep ⟨i, hi⟩ s hP
  exact ⟨s', by rw [dif_pos hi, hs'], hP'⟩

end Failing
