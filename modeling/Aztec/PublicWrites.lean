/-
**The published public writes.**

After the kernel iterations of an enqueued public call the sequencer puts the storage actions of the
call in the order of their execution, in the lists of the kernel output for the revertible and for
the non-revertible phases, and after each phase it removes redundant writes.  The actions of the
simulator are matched with those of the kernel by leaf slot and value.
-/

import Aztec.EnqueuedCalls
import Aztec.SequentialLog

open List

namespace PublicWrites

open Kernel Noir Sequencer SequentialLog

/-! ### Lists of the kernel -/

/-- `PublicDataRead` or `PublicDataUpdateRequest`; neither is compared by its counter. -/
structure Item where
  leafSlot : Field
  value : Field
  deriving DecidableEq

/-- The items of a part of the kernel output, without the padding. -/
structure Lists where
  publicDataReads : List Item
  publicDataUpdateRequests : List Item
  deriving DecidableEq

structure KernelOutput where
  «end» : Lists
  endNonRevertible : Lists
  deriving DecidableEq

/-- An enqueued call: the items that the simulator has collected, in the order of execution, and
those that the kernel iterations of the call add, which are the same in some order. -/
structure Call where
  reads : List Item
  updates : List Item
  kernelReads : List Item
  kernelUpdates : List Item
  reads_perm : kernelReads.Perm reads
  updates_perm : kernelUpdates.Perm updates

def Lists.add (lists : Lists) (reads updates : List Item) : Lists :=
  ⟨lists.publicDataReads ++ reads, lists.publicDataUpdateRequests ++ updates⟩

/-- Setup and teardown add to the non-revertible part, app logic to the other one. -/
def KernelOutput.add (output : KernelOutput) (phase : Phase) (reads updates : List Item) :
    KernelOutput :=
  match phase with
  | .setup | .teardown =>
    { output with endNonRevertible := output.endNonRevertible.add reads updates }
  | .appLogic => { output with «end» := output.end.add reads updates }

def KernelOutput.other (output : KernelOutput) : Phase → Lists
  | .setup | .teardown => output.end
  | .appLogic => output.endNonRevertible

/-! ### Patching the order -/

/-- The items of earlier calls, and then the given ones. -/
def patchList (kernel sim : List Item) : List Item :=
  slice kernel 0 (kernel.length - sim.length) ++ sim

/-- The items of the simulator for which the kernel has one with the same slot and value. -/
def found (kernel sim : List Item) : List Item := sim.filter fun item => decide (item ∈ kernel)

def patchPublicStorageActionOrdering (output : KernelOutput) (simReads simUpdates : List Item) :
    Except String KernelOutput :=
  let simRevertibleReads := found output.end.publicDataReads simReads
  let simRevertibleUpdates := found output.end.publicDataUpdateRequests simUpdates
  let simNonRevertibleReads := found output.endNonRevertible.publicDataReads simReads
  let simNonRevertibleUpdates := found output.endNonRevertible.publicDataUpdateRequests simUpdates
  if simRevertibleReads.length + simNonRevertibleReads.length ≠ simReads.length then
    .error "Public data reads from simulator do not match those from public kernel."
  else if simRevertibleUpdates.length + simNonRevertibleUpdates.length ≠ simUpdates.length then
    .error "Public data update requests from simulator do not match those from public kernel."
  else .ok
    { «end» :=
        ⟨patchList output.end.publicDataReads simRevertibleReads,
          patchList output.end.publicDataUpdateRequests simRevertibleUpdates⟩
      endNonRevertible :=
        ⟨patchList output.endNonRevertible.publicDataReads simNonRevertibleReads,
          patchList output.endNonRevertible.publicDataUpdateRequests simNonRevertibleUpdates⟩ }

def lastWriteTo (updates : List Item) (leafSlot : Field) : Option Item :=
  updates.reverse.find? fun update => decide (update.leafSlot = leafSlot)

/-- The writes that are equal to the last one to their slot. -/
def lastWrites (updates : List Item) : List Item :=
  updates.filter fun update => decide (lastWriteTo updates update.leafSlot = some update)

def removeRedundantPublicDataWrites (output : KernelOutput) : KernelOutput :=
  { output with
    «end» :=
      { output.end with
        publicDataUpdateRequests := lastWrites output.end.publicDataUpdateRequests } }

/-! ### Phases -/

/-- A turn of the loop of `processEnqueuedPublicCalls`. -/
def runCall (phase : Phase) (output : KernelOutput) (call : Call) : Except String KernelOutput :=
  patchPublicStorageActionOrdering (output.add phase call.kernelReads call.kernelUpdates)
    call.reads call.updates

/-- `AbstractPhaseManager.processEnqueuedPublicCalls`, for the storage actions. -/
def processEnqueuedPublicCalls (phase : Phase) (output : KernelOutput) (calls : List Call) :
    Except String KernelOutput :=
  if calls.length = 0 then .ok output
  else (calls.foldlM (runCall phase) output).map removeRedundantPublicDataWrites

structure PhaseCalls where
  setup : List Call
  appLogic : List Call
  teardown : List Call

def KernelOutput.start : KernelOutput := ⟨⟨[], []⟩, ⟨[], []⟩⟩

def processPhases (calls : PhaseCalls) : Except String KernelOutput := do
  let output ← processEnqueuedPublicCalls .setup .start calls.setup
  let output ← processEnqueuedPublicCalls .appLogic output calls.appLogic
  processEnqueuedPublicCalls .teardown output calls.teardown

def readsOf (calls : List Call) : List Item := calls.flatMap Call.reads

def updatesOf (calls : List Call) : List Item := calls.flatMap Call.updates

/-! ### The purpose -/

/-- After every call, the items of earlier calls are followed by its own in the order of
execution. -/
def Patched (phase : Phase) : KernelOutput → List Call → Prop
  | _, [] => True
  | output, call :: calls =>
    runCall phase output call = .ok (output.add phase call.reads call.updates) ∧
      Patched phase (output.add phase call.reads call.updates) calls

def applyUpdates (tree : Field → Field) (updates : List Item) : Field → Field :=
  latest tree (updates.map fun update => ⟨true, update.leafSlot, update.value, 0⟩)

/-- The output after a phase that puts its items in order. -/
def afterPhase (phase : Phase) (output : KernelOutput) (calls : List Call) : KernelOutput :=
  if calls.length = 0 then output
  else removeRedundantPublicDataWrites (output.add phase (readsOf calls) (updatesOf calls))

/-- **The published writes are the last writes in execution order**: no patch throws, each leaves
earlier items in place and puts those of its call in order, in the output every slot occurs once in
a part, with its last write, and the updates of both parts give the storage that the calls have
left. -/
structure Published (calls : PhaseCalls) (output : KernelOutput) : Prop where
  setup : Patched .setup .start calls.setup
  appLogic : Patched .appLogic (afterPhase .setup .start calls.setup) calls.appLogic
  teardown : Patched .teardown
    (afterPhase .appLogic (afterPhase .setup .start calls.setup) calls.appLogic) calls.teardown
  returns : processPhases calls = .ok output
  end_nodup : (output.end.publicDataUpdateRequests.map Item.leafSlot).Nodup
  end_last : ∀ update ∈ output.end.publicDataUpdateRequests,
    lastWriteTo (updatesOf calls.appLogic) update.leafSlot = some update
  endNonRevertible_nodup :
    (output.endNonRevertible.publicDataUpdateRequests.map Item.leafSlot).Nodup
  endNonRevertible_last : ∀ update ∈ output.endNonRevertible.publicDataUpdateRequests,
    lastWriteTo (updatesOf calls.setup ++ updatesOf calls.teardown) update.leafSlot = some update
  applied : ∀ tree, applyUpdates tree (output.endNonRevertible.publicDataUpdateRequests ++
      output.end.publicDataUpdateRequests) =
    applyUpdates tree (updatesOf calls.setup ++ updatesOf calls.appLogic ++
      updatesOf calls.teardown)

/-- No write is repeated by the last one to its slot. -/
def NoRepeat : List Item → Prop
  | [] => True
  | update :: updates => lastWriteTo updates update.leafSlot ≠ some update ∧ NoRepeat updates

/-- **No action is repeated**: app logic repeats no read and no write of setup with the same value,
teardown repeats no read of app logic with the same value and writes no slot that app logic wrote;
setup and teardown write every slot once; and app logic writes no value to a slot to which it later
comes back as the last one. -/
structure WritesOnce (calls : PhaseCalls) : Prop where
  appLogic_reads : ∀ read ∈ readsOf calls.appLogic, read ∉ readsOf calls.setup
  appLogic_updates : ∀ update ∈ updatesOf calls.appLogic, update ∉ updatesOf calls.setup
  teardown_reads : ∀ read ∈ readsOf calls.teardown, read ∉ readsOf calls.appLogic
  teardown_updates : ∀ update ∈ updatesOf calls.teardown, ∀ other ∈ updatesOf calls.appLogic,
    update.leafSlot ≠ other.leafSlot
  nonRevertible : ((updatesOf calls.setup ++ updatesOf calls.teardown).map Item.leafSlot).Nodup
  appLogic_last : NoRepeat (updatesOf calls.appLogic)

/-! ### When a patch succeeds -/

section Patch

variable {α : Type} {kernel sim : List Item}

theorem slice_zero (l : List α) (n : ℕ) : slice l 0 n = l.take n := by
  have hneg : ¬ ((n : ℤ) < 0) := by omega
  simp [slice, sliceIndex, hneg]

theorem patchList_append {earlier : List Item} (h : kernel.Perm sim) :
    patchList (earlier ++ kernel) sim = earlier ++ sim := by
  have hlen : (((earlier ++ kernel).length : ℤ) - sim.length) = (earlier.length : ℕ) := by
    rw [length_append, h.length_eq]
    push_cast
    omega
  rw [patchList, hlen, slice_zero, take_left]

theorem patchList_nil (kernel : List Item) : patchList kernel [] = kernel := by
  simpa using @patchList_append [] [] kernel (List.Perm.refl _)

theorem found_append (earlier : List Item) (h : kernel.Perm sim) :
    found (earlier ++ kernel) sim = sim :=
  filter_eq_self.2 fun _ hitem =>
    decide_eq_true (mem_append_right _ (h.symm.subset hitem))

theorem found_length_eq_zero_iff {other : List Item} :
    (found other sim).length = 0 ↔ ∀ item ∈ sim, item ∉ other := by
  rw [found, length_eq_zero_iff, filter_eq_nil_iff]
  simp

theorem patchList_found (h : (found kernel sim).length = 0) :
    patchList kernel (found kernel sim) = kernel := by
  rw [length_eq_zero_iff.1 h, patchList_nil]

theorem patchBoth_iff {m n : ℕ} {msg msg' : String} {result expected : α}
    (h : m = 0 → n = 0 → result = expected) :
    (if ¬ m = 0 then Except.error msg else if ¬ n = 0 then .error msg' else .ok result) =
        .ok expected ↔ m = 0 ∧ n = 0 := by
  by_cases hm : m = 0
  · by_cases hn : n = 0
    · simp [hm, hn, h hm hn]
    · simp [hm, hn]
  · simp [hm]

variable {output : KernelOutput} {phase : Phase} {call : Call}

theorem runCall_iff : runCall phase output call = .ok (output.add phase call.reads call.updates) ↔
      (∀ read ∈ call.reads, read ∉ (output.other phase).publicDataReads) ∧
        ∀ update ∈ call.updates, update ∉ (output.other phase).publicDataUpdateRequests := by
  obtain ⟨⟨endReads, endUpdates⟩, ⟨nonRevertibleReads, nonRevertibleUpdates⟩⟩ := output
  rw [← found_length_eq_zero_iff, ← found_length_eq_zero_iff]
  have hreads := call.reads_perm
  have hupdates := call.updates_perm
  unfold runCall patchPublicStorageActionOrdering
  cases phase with
  | appLogic =>
    simp only [KernelOutput.add, Lists.add, KernelOutput.other,
      found_append endReads hreads, found_append endUpdates hupdates, Nat.add_eq_left, ne_eq]
    exact patchBoth_iff (fun h h' => by
      rw [patchList_found h, patchList_found h', patchList_append hreads,
        patchList_append hupdates])
  | setup | teardown =>
    simp only [KernelOutput.add, Lists.add, KernelOutput.other,
      found_append nonRevertibleReads hreads, found_append nonRevertibleUpdates hupdates,
      Nat.add_eq_right, ne_eq]
    exact patchBoth_iff (fun h h' => by
      rw [patchList_found h, patchList_found h', patchList_append hreads,
        patchList_append hupdates])

end Patch

/-! ### Phases -/

section Phases

variable {output : KernelOutput} {phase : Phase}

@[simp] theorem add_nil (output : KernelOutput) (phase : Phase) :
    output.add phase [] [] = output := by
  cases phase <;> simp [KernelOutput.add, Lists.add]

theorem add_add (output : KernelOutput) (phase : Phase)
    (reads updates reads' updates' : List Item) :
    (output.add phase reads updates).add phase reads' updates' =
      output.add phase (reads ++ reads') (updates ++ updates') := by
  cases phase <;> simp [KernelOutput.add, Lists.add]

@[simp] theorem other_add (output : KernelOutput) (phase : Phase) (reads updates : List Item) :
    (output.add phase reads updates).other phase = output.other phase := by
  cases phase <;> rfl

variable {calls : List Call}

theorem patched_iff : Patched phase output calls ↔
      (∀ read ∈ readsOf calls, read ∉ (output.other phase).publicDataReads) ∧
        ∀ update ∈ updatesOf calls, update ∉ (output.other phase).publicDataUpdateRequests := by
  induction calls generalizing output with
  | nil => simp [Patched, readsOf, updatesOf]
  | cons call calls ih =>
    have hreads : readsOf (call :: calls) = call.reads ++ readsOf calls := rfl
    have hupdates : updatesOf (call :: calls) = call.updates ++ updatesOf calls := rfl
    rw [Patched, runCall_iff, ih, other_add, hreads, hupdates]
    simp only [mem_append, or_imp, forall_and]
    tauto

theorem foldlM_runCall (h : Patched phase output calls) :
    calls.foldlM (runCall phase) output =
      .ok (output.add phase (readsOf calls) (updatesOf calls)) := by
  induction calls generalizing output with
  | nil => simp [readsOf, updatesOf, pure, Except.pure]
  | cons call calls ih =>
    rw [foldlM_cons, h.1]
    exact (ih h.2).trans (congrArg Except.ok (add_add ..))

theorem processEnqueuedPublicCalls_eq (h : Patched phase output calls) :
    processEnqueuedPublicCalls phase output calls = .ok (afterPhase phase output calls) := by
  unfold processEnqueuedPublicCalls afterPhase
  split
  · rfl
  · rw [foldlM_runCall h]
    rfl

end Phases

/-! ### Last writes -/

section LastWrites

variable {updates : List Item} {update : Item} {leafSlot : Field}

theorem lastWriteTo_append (updates updates' : List Item) (leafSlot : Field) :
    lastWriteTo (updates ++ updates') leafSlot =
      (lastWriteTo updates' leafSlot).or (lastWriteTo updates leafSlot) := by
  simp [lastWriteTo, find?_append]

theorem lastWriteTo_cons (update : Item) (updates : List Item) (leafSlot : Field) :
    lastWriteTo (update :: updates) leafSlot = (lastWriteTo updates leafSlot).or
        (if update.leafSlot = leafSlot then some update else none) := by
  rw [← singleton_append, lastWriteTo_append]
  by_cases h : update.leafSlot = leafSlot <;> simp [lastWriteTo, h]

theorem lastWriteTo_eq_none_iff :
    lastWriteTo updates leafSlot = none ↔ ∀ update ∈ updates, update.leafSlot ≠ leafSlot := by
  simp [lastWriteTo]

theorem lastWriteTo_mem (h : lastWriteTo updates leafSlot = some update) :
    update ∈ updates ∧ update.leafSlot = leafSlot :=
  ⟨mem_reverse.1 (mem_of_find?_eq_some h), by simpa using find?_some h⟩

theorem lastWriteTo_isSome (h : update ∈ updates) :
    ∃ last, lastWriteTo updates update.leafSlot = some last := by
  cases hlast : lastWriteTo updates update.leafSlot with
  | none => exact absurd rfl (lastWriteTo_eq_none_iff.1 hlast update h)
  | some last => exact ⟨last, rfl⟩

theorem mem_lastWrites_of_lastWriteTo (h : lastWriteTo updates leafSlot = some update) :
    update ∈ lastWrites updates := by
  obtain ⟨hmem, hslot⟩ := lastWriteTo_mem h
  exact mem_filter.2 ⟨hmem, decide_eq_true (hslot ▸ h)⟩

theorem lastWrites_cons (update : Item) (updates : List Item) : lastWrites (update :: updates) =
      if lastWriteTo (update :: updates) update.leafSlot = some update then
        update :: lastWrites updates else lastWrites updates := by
  have hrest : (updates.filter fun other =>
      decide (lastWriteTo (update :: updates) other.leafSlot = some other)) =
      lastWrites updates := by
    refine filter_congr fun other hother => ?_
    obtain ⟨last, hlast⟩ := lastWriteTo_isSome hother
    rw [lastWriteTo_cons, hlast, Option.some_or]
  rw [lastWrites, filter_cons, hrest]
  simp

theorem nodup_removeRedundant_iff :
    ((lastWrites updates).map Item.leafSlot).Nodup ↔ NoRepeat updates := by
  induction updates with
  | nil => simp [lastWrites, NoRepeat]
  | cons update updates ih =>
    rw [lastWrites_cons, lastWriteTo_cons, if_pos rfl, NoRepeat]
    cases hlast : lastWriteTo updates update.leafSlot with
    | none =>
      have hnew : update.leafSlot ∉ (lastWrites updates).map Item.leafSlot := by
        intro hmem
        obtain ⟨other, hother, hslot⟩ := mem_map.1 hmem
        exact lastWriteTo_eq_none_iff.1 hlast other (mem_filter.1 hother).1 hslot
      simp [hnew, ih]
    | some last =>
      by_cases heq : last = update
      · subst heq
        have hold : last.leafSlot ∈ (lastWrites updates).map Item.leafSlot :=
          mem_map_of_mem (mem_lastWrites_of_lastWriteTo hlast)
        simp [hold]
      · simp [heq, ih]

theorem lastWriteTo_of_nodup (h : (updates.map Item.leafSlot).Nodup) (hmem : update ∈ updates) :
    lastWriteTo updates update.leafSlot = some update := by
  obtain ⟨last, hlast⟩ := lastWriteTo_isSome hmem
  obtain ⟨hlast', hslot⟩ := lastWriteTo_mem hlast
  rw [hlast, inj_on_of_nodup_map h hlast' hmem hslot]

theorem lastWriteTo_lastWrites (updates : List Item) (leafSlot : Field) :
    lastWriteTo (lastWrites updates) leafSlot = lastWriteTo updates leafSlot := by
  cases h : lastWriteTo updates leafSlot with
  | none =>
    exact lastWriteTo_eq_none_iff.2 fun update hmem =>
      lastWriteTo_eq_none_iff.1 h update (mem_filter.1 hmem).1
  | some last =>
    have hmem := mem_lastWrites_of_lastWriteTo h
    obtain ⟨-, rfl⟩ := lastWriteTo_mem h
    obtain ⟨other, hother⟩ := lastWriteTo_isSome hmem
    obtain ⟨hother', hslot⟩ := lastWriteTo_mem hother
    have hkept := of_decide_eq_true (mem_filter.1 hother').2
    rw [hslot, h] at hkept
    rw [hother, hkept]

theorem lastWrites_lastWrites (updates : List Item) :
    lastWrites (lastWrites updates) = lastWrites updates := by
  refine filter_eq_self.2 fun update hmem => ?_
  rw [lastWriteTo_lastWrites]
  exact (mem_filter.1 hmem).2

theorem applyUpdates_eq (tree : Field → Field) (updates : List Item) (leafSlot : Field) :
    applyUpdates tree updates leafSlot =
      ((lastWriteTo updates leafSlot).map Item.value).getD (tree leafSlot) := by
  rw [applyUpdates, latest_eq_lastWrite]
  congr 1
  simp only [lastWrite?, lastWriteTo, ← map_reverse, find?_map, Option.map_map]
  rfl

end LastWrites

/-! ### The output of a transaction -/

section Output

variable {calls : PhaseCalls}

def published (calls : PhaseCalls) : KernelOutput where
  «end» := ⟨readsOf calls.appLogic, lastWrites (updatesOf calls.appLogic)⟩
  endNonRevertible :=
    ⟨readsOf calls.setup ++ readsOf calls.teardown,
      updatesOf calls.setup ++ updatesOf calls.teardown⟩

theorem afterPhase_setup (calls : List Call) :
    afterPhase .setup .start calls = ⟨⟨[], []⟩, ⟨readsOf calls, updatesOf calls⟩⟩ := by
  unfold afterPhase
  split
  · next h =>
      obtain rfl := length_eq_zero_iff.1 h
      rfl
  · rfl

theorem afterPhase_appLogic (nonRevertible : Lists) (calls : List Call) :
    afterPhase .appLogic ⟨⟨[], []⟩, nonRevertible⟩ calls =
      ⟨⟨readsOf calls, lastWrites (updatesOf calls)⟩, nonRevertible⟩ := by
  unfold afterPhase
  split
  · next h =>
      obtain rfl := length_eq_zero_iff.1 h
      rfl
  · rfl

theorem afterPhase_teardown (reads updates : List Item) (nonRevertible : Lists)
    (calls : List Call) : afterPhase .teardown ⟨⟨reads, lastWrites updates⟩, nonRevertible⟩ calls =
      ⟨⟨reads, lastWrites updates⟩, nonRevertible.add (readsOf calls) (updatesOf calls)⟩ := by
  unfold afterPhase
  split
  · next h =>
      obtain rfl := length_eq_zero_iff.1 h
      simp [Lists.add, readsOf, updatesOf]
  · simp only [removeRedundantPublicDataWrites, KernelOutput.add, lastWrites_lastWrites]

theorem processPhases_eq (hsetup : Patched .setup .start calls.setup)
    (happ : Patched .appLogic (afterPhase .setup .start calls.setup) calls.appLogic)
    (hteardown : Patched .teardown
      (afterPhase .appLogic (afterPhase .setup .start calls.setup) calls.appLogic) calls.teardown) :
    processPhases calls = .ok (published calls) := by
  unfold processPhases
  rw [processEnqueuedPublicCalls_eq hsetup]
  simp only [bind, Except.bind, processEnqueuedPublicCalls_eq happ,
    processEnqueuedPublicCalls_eq hteardown]
  rw [afterPhase_setup, afterPhase_appLogic, afterPhase_teardown]
  rfl

theorem patched_phases_iff : (Patched .setup .start calls.setup ∧
      Patched .appLogic (afterPhase .setup .start calls.setup) calls.appLogic ∧ Patched .teardown
        (afterPhase .appLogic (afterPhase .setup .start calls.setup) calls.appLogic)
        calls.teardown) ↔ ((∀ read ∈ readsOf calls.appLogic, read ∉ readsOf calls.setup) ∧
        ∀ update ∈ updatesOf calls.appLogic, update ∉ updatesOf calls.setup) ∧
      (∀ read ∈ readsOf calls.teardown, read ∉ readsOf calls.appLogic) ∧
        ∀ update ∈ updatesOf calls.teardown, update ∉ lastWrites (updatesOf calls.appLogic) := by
  rw [patched_iff, patched_iff, patched_iff, afterPhase_setup, afterPhase_appLogic]
  simp [KernelOutput.other, KernelOutput.start]

theorem applyUpdates_published
    (hslots : ∀ update ∈ updatesOf calls.teardown, ∀ other ∈ updatesOf calls.appLogic,
      update.leafSlot ≠ other.leafSlot) (tree : Field → Field) :
    applyUpdates tree ((updatesOf calls.setup ++ updatesOf calls.teardown) ++
        lastWrites (updatesOf calls.appLogic)) =
      applyUpdates tree (updatesOf calls.setup ++ updatesOf calls.appLogic ++
        updatesOf calls.teardown) := by
  funext leafSlot
  simp only [applyUpdates_eq, lastWriteTo_append, lastWriteTo_lastWrites]
  cases hteardown : lastWriteTo (updatesOf calls.teardown) leafSlot with
  | none => simp
  | some update =>
    obtain ⟨hmem, rfl⟩ := lastWriteTo_mem hteardown
    have happ : lastWriteTo (updatesOf calls.appLogic) update.leafSlot = none :=
      lastWriteTo_eq_none_iff.2 fun other hother => (hslots update hmem other hother).symm
    simp [happ]

/-- **The published writes are right exactly when** no action is repeated. -/
theorem published_iff (calls : PhaseCalls) :
    (∃ output, Published calls output) ↔ WritesOnce calls := by
  constructor
  · rintro ⟨output, h⟩
    have hphases := patched_phases_iff.1 ⟨h.setup, h.appLogic, h.teardown⟩
    obtain rfl : published calls = output := Except.ok.inj
      ((processPhases_eq h.setup h.appLogic h.teardown).symm.trans h.returns)
    refine
      { appLogic_reads := hphases.1.1
        appLogic_updates := hphases.1.2
        teardown_reads := hphases.2.1
        teardown_updates := fun update hupdate other hother heq => ?_
        nonRevertible := h.endNonRevertible_nodup
        appLogic_last := nodup_removeRedundant_iff.1 h.end_nodup }
    -- the slot ends with the write of app logic, but the write of teardown came after it
    obtain ⟨last, hlast⟩ := lastWriteTo_isSome hother
    obtain ⟨hlast', hslot⟩ := lastWriteTo_mem hlast
    have hteardown := lastWriteTo_of_nodup
      ((List.nodup_append.1 (List.map_append ▸ h.endNonRevertible_nodup)).2.1) hupdate
    have happlied := congrFun (h.applied fun _ => 0) update.leafSlot
    simp only [applyUpdates_eq, lastWriteTo_append, published, lastWriteTo_lastWrites, hteardown,
      heq ▸ hlast, Option.some_or, Option.map_some, Option.getD_some] at happlied
    have hsame : last = update := by
      cases last
      cases update
      simp_all
    exact hphases.2.2 update hupdate (hsame ▸ mem_lastWrites_of_lastWriteTo hlast)
  · intro h
    obtain ⟨hsetup, happ, hteardown⟩ := patched_phases_iff.2
      ⟨⟨h.appLogic_reads, h.appLogic_updates⟩, h.teardown_reads, fun update hupdate hmem =>
        h.teardown_updates update hupdate update (List.mem_filter.1 hmem).1 rfl⟩
    exact ⟨published calls,
      { setup := hsetup
        appLogic := happ
        teardown := hteardown
        returns := processPhases_eq hsetup happ hteardown
        end_nodup := nodup_removeRedundant_iff.2 h.appLogic_last
        end_last := fun update hupdate => of_decide_eq_true (List.mem_filter.1 hupdate).2
        endNonRevertible_nodup := h.nonRevertible
        endNonRevertible_last := fun update hupdate => lastWriteTo_of_nodup h.nonRevertible hupdate
        applied := applyUpdates_published h.teardown_updates }⟩

end Output

def sameRead : PhaseCalls where
  setup := [⟨[⟨5, 0⟩], [], [⟨5, 0⟩], [], List.Perm.refl _, List.Perm.refl _⟩]
  appLogic := [⟨[⟨5, 0⟩], [], [⟨5, 0⟩], [], List.Perm.refl _, List.Perm.refl _⟩]
  teardown := []

-- two calls of app logic that write the same value leave the slot twice in the list
example : lastWrites [⟨5, 1⟩, ⟨5, 2⟩, ⟨5, 1⟩] = [⟨5, 1⟩, ⟨5, 1⟩] := by decide

/-- **The published writes are not right in general**: the patch throws when app logic reads a slot
that setup has read, with the same value. -/
theorem not_published : ¬ ∀ calls : PhaseCalls, ∃ output, Published calls output := by
  intro h
  obtain ⟨output, hpublished⟩ := h sameRead
  have hthrows : processPhases sameRead =
      .error "Public data reads from simulator do not match those from public kernel." := by rfl
  exact absurd (hthrows.symm.trans hpublished.returns) nofun

end PublicWrites
