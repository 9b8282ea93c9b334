/-
**Workers that climb levels one behind another.**

A number of workers run straight programs over a shared store, whose cells stand at levels.  A
worker signals the levels it is done with and waits for the level its leader, the worker in front of
it, has signalled.  When every program keeps its distance from its leader, the levels are written in
the order of the workers, and a worker reads a level between the writes of its leader and those of
its follower: every interleaving ends like the serial execution.
-/

import Mathlib.Data.List.Basic
import Mathlib.Order.Basic
import Mathlib.Order.MinMax
import Mathlib.Logic.Function.Basic
import Mathlib.Algebra.BigOperators.Group.List.Basic
import Mathlib.Algebra.GroupWithZero.Nat
import Mathlib.Data.Nat.Find
import Mathlib.Tactic.Common

open Function List
open Option (some)

namespace Pipeline

/-! ### Programs -/

/-- The atomic steps of a worker over a store of values of type `V`, with local state `L`. -/
inductive Instr (V L : Type) where
  | waitForLevel (level : ℕ)
  | signalLevel (level : ℕ)
  | read (level index : ℕ) (next : V → L → L)
  | write (level index : ℕ) (value : L → V)

/-- A worker: its local state and the steps it still has to take. -/
structure Worker (V L : Type) where
  locals : L
  rest : List (Instr V L)

/-- What the workers share, and the workers.  Worker `i` waits on signal `i` and signals on
`i + 1`. -/
structure State (V L : Type) where
  store : ℕ × ℕ → V
  signals : ℕ → ℕ
  workers : List (Worker V L)

section Runs

variable {V L : Type}

/-- The effect of a step on the local state and the store. -/
def Instr.exec : Instr V L → L × (ℕ × ℕ → V) → L × (ℕ × ℕ → V)
  | waitForLevel _, x => x
  | signalLevel _, x => x
  | read level index next, (l, store) => (next (store (level, index)) l, store)
  | write level index value, (l, store) => (l, Function.update store (level, index) (value l))

def exec : List (Instr V L) → L × (ℕ × ℕ → V) → L × (ℕ × ℕ → V)
  | [], x => x
  | instr :: rest, x => exec rest (instr.exec x)

/-- **The serial execution**: every worker completely before the next one. -/
def serial : List (Worker V L) → (ℕ × ℕ → V) → List L × (ℕ × ℕ → V)
  | [], store => ([], store)
  | worker :: workers, store =>
    let done := exec worker.rest (worker.locals, store)
    let others := serial workers done.2
    (done.1 :: others.1, others.2)

def Instr.enabled (signal : ℕ) : Instr V L → Bool
  | waitForLevel level => signal ≤ level
  | _ => true

/-- The signals after a step of worker `i`. -/
def Instr.signal (signals : ℕ → ℕ) (i : ℕ) : Instr V L → ℕ → ℕ
  | signalLevel level => Function.update signals (i + 1) level
  | _ => signals

/-- **The next step of worker `i`**, if there is one and it is not waiting. -/
def step (s : State V L) (i : ℕ) : Option (State V L) :=
  match s.workers[i]? with
  | none => none
  | some ⟨_, []⟩ => none
  | some ⟨l, instr :: rest⟩ =>
    if instr.enabled (s.signals i) then
      let (l, store) := instr.exec (l, s.store)
      some { store, signals := instr.signal s.signals i, workers := s.workers.set i ⟨l, rest⟩ }
    else none

/-- The steps of a schedule, which names the worker that moves. -/
def run (s : State V L) (schedule : List ℕ) : Option (State V L) := schedule.foldlM step s

/-- Before the first step: the first worker does not wait, the others wait for their leader to
signal a level below `top`. -/
def start (top : ℕ) (workers : List (Worker V L)) (store : ℕ × ℕ → V) : State V L :=
  { store, signals := fun i => if i = 0 then 0 else top, workers }

def State.Finished (s : State V L) : Prop := ∀ worker ∈ s.workers, worker.rest = []

/-! ### Programs that keep their distance -/

/-- A program keeps its distance when the levels from `written` on are written and the leader is
known to have written those from `waited` on.  It writes the levels below `top` downwards and each
only after its leader has written the level below; it reads a level its leader has written, as long
as it has not written the level below itself. -/
def KeepsDistance (top : ℕ) : ℕ → ℕ → List (Instr V L) → Prop
  | written, _, [] => written = 0
  | written, waited, .waitForLevel level :: rest =>
    KeepsDistance top written (min waited level) rest
  | written, waited, .signalLevel level :: rest =>
    written ≤ level ∧ KeepsDistance top written waited rest
  | written, waited, .read level _ _ :: rest =>
    (0 < level ∧ level < top ∧ waited ≤ level ∧ level ≤ written) ∧
      KeepsDistance top written waited rest
  | written, waited, .write level _ _ :: rest =>
    (written = level + 1 ∧ waited ≤ level - 1) ∧ KeepsDistance top level waited rest

theorem KeepsDistance.exec_snd {top : ℕ} (rest : List (Instr V L)) :
    ∀ {written waited : ℕ} (_ : KeepsDistance top written waited rest) (l : L)
      (store : ℕ × ℕ → V) (cell : ℕ × ℕ), written ≤ cell.1 →
      (exec rest (l, store)).2 cell = store cell := by
  induction rest with
  | nil => intros; rfl
  | cons instr rest ih =>
    intro written waited h l store cell hcell
    cases instr with
    | waitForLevel level => exact ih h l store cell hcell
    | signalLevel level => exact ih h.2 l store cell hcell
    | read level index next => exact ih h.2 _ store cell hcell
    | write level index value =>
      have hlevel := h.1.1
      rw [exec, Instr.exec, ih h.2 _ _ cell (by omega), update_of_ne]
      rintro rfl
      simp only at hcell
      omega

/-! ### The serial execution -/

def storeAfter (workers : List (Worker V L)) (store : ℕ × ℕ → V) (k : ℕ) : ℕ × ℕ → V :=
  (serial (workers.take k) store).2

theorem serial_append (workers workers' : List (Worker V L)) :
    ∀ store : ℕ × ℕ → V, serial (workers ++ workers') store =
      ((serial workers store).1 ++ (serial workers' (serial workers store).2).1,
        (serial workers' (serial workers store).2).2) := by
  induction workers with
  | nil => intro store; rfl
  | cons worker workers ih =>
    intro store
    rw [cons_append, serial, ih]
    rfl

theorem length_serial (workers : List (Worker V L)) :
    ∀ store : ℕ × ℕ → V, (serial workers store).1.length = workers.length := by
  induction workers with
  | nil => intro store; rfl
  | cons worker workers ih =>
    intro store
    rw [serial, length_cons, length_cons, ih]

variable {workers : List (Worker V L)} {store : ℕ × ℕ → V} {i : ℕ} {worker : Worker V L}

theorem storeAfter_succ (h : workers[i]? = some worker) : storeAfter workers store (i + 1) =
      (exec worker.rest (worker.locals, storeAfter workers store i)).2 := by
  rw [storeAfter, take_add_one, h, Option.toList_some, serial_append]
  rfl

theorem serial_locals (h : workers[i]? = some worker) : (serial workers store).1[i]? =
      some (exec worker.rest (worker.locals, storeAfter workers store i)).1 := by
  obtain ⟨hi, -⟩ := List.getElem?_eq_some_iff.1 h
  have hsplit : workers = workers.take i ++ worker :: workers.drop (i + 1) := by
    obtain ⟨_, rfl⟩ := List.getElem?_eq_some_iff.1 h
    rw [← List.drop_eq_getElem_cons hi, List.take_append_drop]
  have hlen : (serial (workers.take i) store).1.length = i := by
    rw [length_serial, List.length_take, Nat.min_eq_left (Nat.le_of_lt hi)]
  have hserial := serial_append (workers.take i) (worker :: workers.drop (i + 1)) store
  rw [← hsplit] at hserial
  rw [hserial, List.getElem?_append_right (Nat.le_of_eq hlen), hlen, Nat.sub_self]
  rfl

/-! ### The invariant -/

/-- The store of the serial execution while a worker has written the levels from `written` on. -/
def during (workers : List (Worker V L)) (store : ℕ × ℕ → V) (i written : ℕ) : ℕ × ℕ → V :=
  fun cell =>
    if written ≤ cell.1 then storeAfter workers store (i + 1) cell
    else storeAfter workers store i cell

/-- A worker that has written the levels from `written` on will end as in the serial execution. -/
structure OnTrack (top : ℕ) (workers : List (Worker V L)) (store : ℕ × ℕ → V)
    (i written waited : ℕ) (worker : Worker V L) : Prop where
  keeps : KeepsDistance top written waited worker.rest
  locals_eq : (serial workers store).1[i]? =
    some (exec worker.rest (worker.locals, during workers store i written)).1
  store_eq : (exec worker.rest (worker.locals, during workers store i written)).2 =
    storeAfter workers store (i + 1)

/-- **The invariant.**  Worker `i` has written the levels from `w i` on and knows that its leader
has written those from `u i` on; a level holds what the serial execution leaves there after the
workers that have written it. -/
structure Inv (top : ℕ) (workers : List (Worker V L)) (store : ℕ × ℕ → V) (w u : ℕ → ℕ)
    (s : State V L) : Prop where
  length_eq : s.workers.length = workers.length
  onTrack : ∀ i worker, s.workers[i]? = some worker →
    OnTrack top workers store i (w i) (u i) worker
  le_top : ∀ i, w i ≤ top
  waited : ∀ i, w i ≤ u (i + 1)
  signalled : ∀ i, w i ≤ s.signals (i + 1)
  lag : ∀ i j, i < j → w j = top ∨ w i ≤ w j - 1
  levels : ∀ level, ∃ k ≤ workers.length, (∀ i < workers.length, w i ≤ level ↔ i < k) ∧
    ∀ index, s.store (level, index) = storeAfter workers store k (level, index)

section Steps

variable {top : ℕ} {w u : ℕ → ℕ} {s : State V L} {l : L} {rest : List (Instr V L)}

section

variable (h : Inv top workers store w u s)
include h

theorem Inv.lt_length (hi : s.workers[i]? = some worker) : i < workers.length := by
  rw [← h.length_eq]
  exact (List.getElem?_eq_some_iff.1 hi).1

theorem Inv.read_eq (hi : i < workers.length) {level : ℕ} (hpos : 0 < level) (htop : level < top)
    (hwaited : u i ≤ level) (hwritten : level ≤ w i) (index : ℕ) :
    s.store (level, index) = during workers store i (w i) (level, index) := by
  obtain ⟨k, hk, horder, hstore⟩ := h.levels level
  -- the leader has written the level
  have hle : i ≤ k := by
    cases i with
    | zero => exact Nat.zero_le k
    | succ j => exact (horder j (by omega)).1 (le_trans (h.waited j) hwaited)
  -- the follower has not, as it waits until the level below is written
  have hge : k ≤ i + 1 := by
    by_contra hlt
    have hfollower := (horder (i + 1) (by omega)).2 (by omega)
    rcases h.lag i (i + 1) (by omega) with heq | hlag
    · omega
    · omega
  rw [hstore, during]
  by_cases hw : w i ≤ level
  · have := (horder i hi).1 hw
    rw [if_pos hw, show k = i + 1 by omega]
  · have hnot : ¬i < k := fun hlt => hw ((horder i hi).2 hlt)
    rw [if_neg hw, show k = i by omega]

theorem Inv.of_store_eq (hi : s.workers[i]? = some worker) {waited : ℕ} {signals : ℕ → ℕ}
    {worker' : Worker V L} (htrack : OnTrack top workers store i (w i) waited worker')
    (hwaited : ∀ j, i = j + 1 → w j ≤ waited) (hsignals : ∀ j, w j ≤ signals (j + 1)) :
    Inv top workers store w (update u i waited)
      { store := s.store, signals := signals, workers := s.workers.set i worker' } := by
  refine ⟨by rw [List.length_set, h.length_eq], fun j worker hj => ?_, h.le_top, fun j => ?_,
    hsignals, h.lag, h.levels⟩
  · rw [List.getElem?_set] at hj
    by_cases hij : i = j
    · subst hij
      rw [if_pos rfl, if_pos (List.getElem?_eq_some_iff.1 hi).1, some.injEq] at hj
      subst hj
      rw [update_self]
      exact htrack
    · rw [if_neg hij] at hj
      rw [update_of_ne (Ne.symm hij)]
      exact h.onTrack j worker hj
  · by_cases hij : i = j + 1
    · rw [← hij, update_self]
      exact hwaited j hij
    · rw [update_of_ne (Ne.symm hij)]
      exact h.waited j

theorem Inv.lead_le {level : ℕ} (hwritten : w i = level + 1) (hwaited : u i ≤ level - 1) :
    ∀ j < i, w j ≤ level - 1 := by
  intro j hj
  obtain ⟨m, rfl⟩ : ∃ m, i = m + 1 := ⟨i - 1, by omega⟩
  have hlead := le_trans (h.waited m) hwaited
  have htop := h.le_top (m + 1)
  by_cases hjm : j = m
  · rw [hjm]
    exact hlead
  · rcases h.lag j m (by omega) with heq | hlag
    · omega
    · omega

theorem Inv.write {level index : ℕ} {value : L → V}
    (hi : s.workers[i]? = some ⟨l, .write level index value :: rest⟩) :
    Inv top workers store (update w i level) u
      { store := update s.store (level, index) (value l), signals := s.signals,
        workers := s.workers.set i ⟨l, rest⟩ } := by
  obtain ⟨⟨⟨hwritten, hwaited⟩, hkeeps⟩, hlocals, hstore⟩ := h.onTrack i _ hi
  have hlen := h.lt_length hi
  have hlead := h.lead_le hwritten hwaited
  have hdown : ∀ j, update w i level j ≤ w j := by
    intro j
    by_cases hij : j = i
    · rw [hij, update_self]
      omega
    · rw [update_of_ne hij]
  -- the level that is written is final for this worker
  have hfinal : ∀ index', storeAfter workers store (i + 1) (level, index') =
      if index' = index then value l else storeAfter workers store i (level, index') := by
    intro index'
    rw [← hstore, exec, Instr.exec, hkeeps.exec_snd rest _ _ _ le_rfl]
    by_cases hindex : index' = index
    · rw [hindex, update_self, if_pos rfl]
    · rw [if_neg hindex, update_of_ne (by simpa using hindex), during, if_neg (by simp only; omega)]
  have hduring : update (during workers store i (w i)) (level, index) (value l) =
      during workers store i level := by
    funext ⟨level', index'⟩
    by_cases hlevel : level' = level
    · subst hlevel
      rw [during, if_pos le_rfl, hfinal]
      by_cases hindex : index' = index
      · rw [hindex, update_self, if_pos rfl]
      · rw [if_neg hindex, update_of_ne (by simpa using hindex), during,
          if_neg (by simp only; omega)]
    · rw [update_of_ne (by simp [hlevel]), during, during]
      simp only
      by_cases hle : level ≤ level'
      · rw [if_pos hle, if_pos (by omega)]
      · rw [if_neg hle, if_neg (by omega)]
  rw [exec, Instr.exec, hduring] at hlocals hstore
  refine ⟨by rw [List.length_set, h.length_eq], fun j worker hj => ?_,
    fun j => le_trans (hdown j) (h.le_top j), fun j => le_trans (hdown j) (h.waited j),
    fun j => le_trans (hdown j) (h.signalled j), fun j j' hlt => ?_, fun level' => ?_⟩
  · rw [List.getElem?_set] at hj
    by_cases hij : i = j
    · subst hij
      rw [if_pos rfl, if_pos (List.getElem?_eq_some_iff.1 hi).1, some.injEq] at hj
      subst hj
      rw [update_self]
      exact ⟨hkeeps, hlocals, hstore⟩
    · rw [if_neg hij] at hj
      rw [update_of_ne (Ne.symm hij)]
      exact h.onTrack j worker hj
  · by_cases hij : j' = i
    · subst hij
      rw [update_self, update_of_ne (by omega)]
      exact Or.inr (hlead j hlt)
    · rw [update_of_ne hij]
      exact (h.lag j j' hlt).imp_right (le_trans (hdown j))
  · obtain ⟨k, hk, horder, hstore'⟩ := h.levels level'
    by_cases hlevel : level' = level
    · subst hlevel
      -- the workers in front have written the level, the writer has not
      have hki : k = i := by
        have hnot : ¬i < k := fun hlt => by
          have := (horder i hlen).2 hlt
          omega
        cases i with
        | zero => omega
        | succ m =>
          have := (horder m (by omega)).1 (le_trans (hlead m (by omega)) (Nat.sub_le _ _))
          omega
      subst hki
      refine ⟨k + 1, hlen, fun j hj => ?_, fun index' => ?_⟩
      · by_cases hij : j = k
        · rw [hij, update_self]
          omega
        · rw [update_of_ne hij, horder j hj]
          omega
      · rw [hfinal]
        by_cases hindex : index' = index
        · simp only [hindex, update_self, if_true]
        · simp only [hindex, if_false, ← hstore']
          exact update_of_ne (by simpa using hindex) _ _
    · refine ⟨k, hk, fun j hj => ?_, fun index' => ?_⟩
      · rw [← horder j hj]
        by_cases hij : j = i
        · rw [hij, update_self]
          omega
        · rw [update_of_ne hij]
      · rw [← hstore']
        exact update_of_ne (by simp [hlevel]) _ _

theorem Inv.step {s' : State V L} (hstep : step s i = some s') :
    ∃ w' u', Inv top workers store w' u' s' := by
  unfold Pipeline.step at hstep
  split at hstep
  · cases hstep
  · cases hstep
  · next l instr rest hi =>
    split at hstep
    · next henabled =>
      obtain rfl := some.inj hstep
      obtain ⟨hkeeps, hlocals, hstore⟩ := h.onTrack i _ hi
      cases instr with
      | waitForLevel level =>
        have hsignal : s.signals i ≤ level := by simpa [Instr.enabled] using henabled
        refine ⟨w, _, h.of_store_eq hi ⟨hkeeps, hlocals, hstore⟩ (fun j hj => ?_) h.signalled⟩
        subst hj
        exact le_min (h.waited j) (le_trans (h.signalled j) hsignal)
      | signalLevel level =>
        refine ⟨w, _, h.of_store_eq hi ⟨hkeeps.2, hlocals, hstore⟩ (fun j hj => ?_) fun j => ?_⟩
        · subst hj
          exact h.waited j
        · by_cases hij : j = i
          · rw [hij]
            simp only [Instr.signal, update_self]
            exact hkeeps.1
          · simp only [Instr.signal]
            rw [update_of_ne (by omega)]
            exact h.signalled j
      | read level index next =>
        obtain ⟨⟨hpos, htop, hwaited, hwritten⟩, hkeeps⟩ := hkeeps
        have hread := h.read_eq (h.lt_length hi) hpos htop hwaited hwritten index
        rw [exec, Instr.exec, ← hread] at hlocals hstore
        refine ⟨w, _, h.of_store_eq hi ⟨hkeeps, hlocals, hstore⟩ (fun j hj => ?_) h.signalled⟩
        subst hj
        exact h.waited j
      | write level index value => exact ⟨_, _, h.write hi⟩
    · cases hstep

end

theorem inv_start (h : ∀ worker ∈ workers, KeepsDistance top top top worker.rest) :
    Inv top workers store (fun _ => top) (fun _ => top) (start top workers store) := by
  -- nothing at the top is ever written
  have htop : ∀ k ≤ workers.length, ∀ cell : ℕ × ℕ, top ≤ cell.1 →
      storeAfter workers store k cell = store cell := by
    intro k
    induction k with
    | zero => intros; rfl
    | succ k ih =>
      intro hk cell hcell
      have hworker : workers[k]? = some (workers[k]) := List.getElem?_eq_getElem _
      rw [storeAfter_succ hworker,
        (h _ (List.getElem_mem _)).exec_snd _ _ _ _ hcell, ih (by omega) cell hcell]
  refine ⟨rfl, fun i worker hi => ?_, fun _ => le_rfl, fun _ => le_rfl, fun i => ?_,
    fun _ _ _ => Or.inl rfl, fun level => ?_⟩
  · obtain ⟨hlt, hmem⟩ := List.getElem?_eq_some_iff.1 hi
    have hduring : during workers store i top = storeAfter workers store i := by
      funext cell
      rw [during]
      split
      · next hcell => rw [htop _ hlt cell hcell, htop _ (Nat.le_of_lt hlt) cell hcell]
      · rfl
    refine ⟨h worker (hmem ▸ List.getElem_mem _), ?_, ?_⟩
    · rw [hduring]
      exact serial_locals hi
    · rw [hduring]
      exact (storeAfter_succ hi).symm
  · simp [start]
  · by_cases hlevel : top ≤ level
    · refine ⟨workers.length, le_rfl, fun i hi => ⟨fun _ => hi, fun _ => hlevel⟩, fun index => ?_⟩
      rw [htop _ le_rfl (level, index) hlevel]
      rfl
    · exact ⟨0, Nat.zero_le _, fun i _ => ⟨fun hle => absurd hle hlevel, fun hlt => by omega⟩,
        fun index => rfl⟩

theorem Inv.run (schedule : List ℕ) :
    ∀ {w u : ℕ → ℕ} {s s' : State V L}, Inv top workers store w u s →
      run s schedule = some s' → ∃ w' u', Inv top workers store w' u' s' := by
  induction schedule with
  | nil =>
    intro w u s s' h hrun
    obtain rfl := some.inj hrun
    exact ⟨w, u, h⟩
  | cons i schedule ih =>
    intro w u s s' h hrun
    rw [Pipeline.run, foldlM_cons] at hrun
    obtain ⟨s₁, hstep, hrest⟩ := Option.bind_eq_some_iff.1 hrun
    obtain ⟨w₁, u₁, h₁⟩ := h.step hstep
    exact ih h₁ hrest

theorem Inv.eq_serial (h : Inv top workers store w u s) (hdone : s.Finished) :
    (s.workers.map Worker.locals, s.store) = serial workers store := by
  have hzero : ∀ i < workers.length, w i = 0 := by
    intro i hi
    have hlt : i < s.workers.length := by rw [h.length_eq]; exact hi
    have hworker : s.workers[i]? = some s.workers[i] := getElem?_eq_getElem hlt
    have hkeeps := (h.onTrack i _ hworker).keeps
    rw [hdone _ (getElem_mem _)] at hkeeps
    exact hkeeps
  refine Prod.ext (ext_getElem? fun i => ?_) (funext fun ⟨level, index⟩ => ?_)
  · rw [getElem?_map]
    cases hi : s.workers[i]? with
    | none =>
      have hlen := getElem?_eq_none_iff.1 hi
      rw [h.length_eq] at hlen
      rw [Option.map_none, getElem?_eq_none (by rw [length_serial]; exact hlen)]
    | some worker =>
      have hlocals := (h.onTrack i _ hi).locals_eq
      rw [hdone _ (mem_of_getElem? hi)] at hlocals
      exact hlocals.symm
  · obtain ⟨k, hk, horder, hstore⟩ := h.levels level
    have hall : k = workers.length := by
      by_contra hne
      have := (horder k (by omega)).1 (by rw [hzero k (by omega)]; omega)
      omega
    change s.store (level, index) = _
    rw [hstore, hall, storeAfter, take_length]

end Steps

/-- **Every finished schedule ends like the serial execution.** -/
theorem run_eq_serial {top : ℕ} {schedule : List ℕ} {s : State V L}
    (h : ∀ worker ∈ workers, KeepsDistance top top top worker.rest)
    (hrun : run (start top workers store) schedule = some s) (hdone : s.Finished) :
    (s.workers.map Worker.locals, s.store) = serial workers store := by
  obtain ⟨w, u, hinv⟩ := Inv.run schedule (inv_start h) hrun
  exact hinv.eq_serial hdone

/-! ### Progress -/

section Progress

variable {top : ℕ} {s s' : State V L}

/-- The signal that a program leaves. -/
def lastSignal (signal : ℕ) : List (Instr V L) → ℕ
  | [] => signal
  | .signalLevel level :: rest => lastSignal level rest
  | _ :: rest => lastSignal signal rest

def State.remaining (s : State V L) : ℕ := (s.workers.map fun worker => worker.rest.length).sum

/-- Every worker will have signalled the lowest level, and the first one has nothing to wait for. -/
structure WillSignal (s : State V L) : Prop where
  first : s.signals 0 = 0
  last : ∀ i worker, s.workers[i]? = some worker → lastSignal (s.signals (i + 1)) worker.rest = 0

theorem step_eq_some (h : step s i = some s') : ∃ l instr rest,
    s.workers[i]? = some ⟨l, instr :: rest⟩ ∧ s'.signals = instr.signal s.signals i ∧
      ∃ l', s'.workers = s.workers.set i ⟨l', rest⟩ := by
  unfold step at h
  split at h
  · cases h
  · cases h
  · next l instr rest hi =>
    split at h
    · obtain rfl := some.inj h
      exact ⟨l, instr, rest, hi, rfl, _, rfl⟩
    · cases h

theorem remaining_step (h : step s i = some s') : s'.remaining + 1 = s.remaining := by
  obtain ⟨l, instr, rest, hi, -, l', hworkers⟩ := step_eq_some h
  have hlengths : (s.workers.map fun worker => worker.rest.length)[i]? = some (rest.length + 1) := by
    rw [getElem?_map, hi]
    rfl
  obtain ⟨hlt, hget⟩ := List.getElem?_eq_some_iff.1 hlengths
  have hold := sum_set (s.workers.map fun worker => worker.rest.length) i (rest.length + 1)
  have hnew := sum_set (s.workers.map fun worker => worker.rest.length) i rest.length
  rw [if_pos hlt] at hold hnew
  rw [← hget, set_getElem_self, hget] at hold
  rw [State.remaining, hworkers, map_set, State.remaining, hnew, hold]
  omega

theorem WillSignal.step (h : WillSignal s) (hstep : step s i = some s') : WillSignal s' := by
  obtain ⟨l, instr, rest, hi, hsignals, l', hworkers⟩ := step_eq_some hstep
  have hlast := h.last i _ hi
  constructor
  · rw [hsignals]
    cases instr <;> exact h.first
  · intro j worker hj
    rw [hworkers, getElem?_set] at hj
    rw [hsignals]
    split at hj
    · next hij =>
      subst hij
      rw [if_pos (List.getElem?_eq_some_iff.1 hi).1, some.injEq] at hj
      subst hj
      cases instr with
      | signalLevel level =>
        rw [Instr.signal, update_self]
        exact hlast
      | _ => exact hlast
    · next hij =>
      cases instr with
      | signalLevel level =>
        rw [Instr.signal, update_of_ne (by omega)]
        exact h.last j worker hj
      | _ => exact h.last j worker hj

/-- **Some worker can move** unless all have finished: the first that has not has a leader that has
signalled the lowest level. -/
theorem WillSignal.progress (h : WillSignal s) (hnot : ¬ s.Finished) :
    ∃ i s', Pipeline.step s i = some s' := by
  have hexists : ∃ (i : ℕ) (worker : Worker V L), s.workers[i]? = some worker ∧ worker.rest ≠ [] := by
    simp only [State.Finished, not_forall] at hnot
    obtain ⟨worker, hmem, hrest⟩ := hnot
    obtain ⟨i, hi⟩ := mem_iff_getElem?.1 hmem
    exact ⟨i, worker, hi, hrest⟩
  classical
  obtain ⟨⟨l, rest⟩, hi, hrest⟩ := Nat.find_spec hexists
  have hsignal : s.signals (Nat.find hexists) = 0 := by
    cases hfind : Nat.find hexists with
    | zero => exact h.first
    | succ j =>
      have hmin := Nat.find_min hexists (m := j) (by omega)
      rw [hfind] at hi
      obtain ⟨hlt, -⟩ := List.getElem?_eq_some_iff.1 hi
      have hj := getElem?_eq_getElem (show j < s.workers.length by omega)
      have hdone : (s.workers[j]).rest = [] := by
        by_contra hne
        exact hmin ⟨_, hj, hne⟩
      have hlast := h.last j _ hj
      rwa [hdone] at hlast
  obtain ⟨instr, rest, rfl⟩ := exists_cons_of_ne_nil hrest
  have henabled : instr.enabled (s.signals (Nat.find hexists)) = true := by
    rw [hsignal]
    cases instr with
    | waitForLevel level => exact decide_eq_true (Nat.zero_le level)
    | _ => rfl
  refine ⟨Nat.find hexists, ?_⟩
  simp only [Pipeline.step, hi, henabled, if_true, some.injEq, exists_eq']

theorem run_progress (hlast : ∀ worker ∈ workers, lastSignal top worker.rest = 0)
    (schedule : List ℕ) (hrun : run (start top workers store) schedule = some s) :
    schedule.length + s.remaining = (start top workers store).remaining ∧
      (s.Finished ∨ ∃ i s', step s i = some s') := by
  have hkeep : ∀ (schedule : List ℕ) {t : State V L}, WillSignal t → run t schedule = some s →
      schedule.length + s.remaining = t.remaining ∧ WillSignal s := by
    intro schedule
    induction schedule with
    | nil =>
      intro t ht hrun
      obtain rfl := some.inj hrun
      exact ⟨Nat.zero_add _, ht⟩
    | cons i schedule ih =>
      intro t ht hrun
      rw [run, foldlM_cons] at hrun
      obtain ⟨t', hstep, hrun⟩ := Option.bind_eq_some_iff.1 hrun
      obtain ⟨hlength, hsignal⟩ := ih (ht.step hstep) hrun
      have hremaining := remaining_step hstep
      refine ⟨?_, hsignal⟩
      rw [length_cons]
      omega
  obtain ⟨hlength, hsignal⟩ := hkeep schedule
    ⟨rfl, fun i worker hi => hlast worker (mem_of_getElem? hi)⟩ hrun
  exact ⟨hlength, or_iff_not_imp_left.2 hsignal.progress⟩

end Progress

end Runs

end Pipeline
