/-
**The phases of the public kernel, over whole chains.**

A chain starts at the output of the private kernel tail and runs one accepted iteration after the
other.  The phases are meant to come in the order setup, app logic, teardown, and the flags that
enforce it are recomputed in each iteration from the call stacks, onto which the executed call has
just pushed the calls it enqueues.

Setup leaves the phase order alone, since its flag asks for two or more non-revertible calls, and
app logic only pushes revertible calls.  Teardown, however, pushes onto the non-revertible stack
it has just emptied: two enqueued calls bring the setup flag back.
-/

import Aztec.PublicKernel

namespace Kernel

open Noir Failing

/-! ### Chains -/

/-- A chain of iterations, each with the public call it executes. -/
def runChain (hashes : KernelHashes) (p : KernelPublicInputs)
    (steps : List (Phase × PublicCallData)) : Circuit KernelPublicInputs :=
  steps.foldlM (fun p step => iteration hashes p step.2 step.1) p

/-- The place of a phase in the order setup, app logic, teardown. -/
def Phase.rank : Phase → ℕ
  | .setup => 0
  | .appLogic => 1
  | .teardown => 2

/-- No iteration of a phase comes after one of a later phase. -/
def PhasesMonotone (steps : List (Phase × PublicCallData)) : Prop :=
  steps.Pairwise fun step later => step.1.rank ≤ later.1.rank

/-- Every public call request that reaches the tail has a hash: the private kernel compares the
requests of a call with the non-zero hashes of its call stack when it takes them over. -/
def TailInput (b : CombinedBuilder) : Prop :=
  ∀ r ∈ b.publicCallStack.storage.toList, r ≠ Empty.empty → r.hash ≠ 0

def TeardownEnqueuesAtMostOne (step : Phase × PublicCallData) : Prop :=
  step.1 = .teardown → enqueuedCalls step.2 ≤ 1

/-! ### The invariant -/

/-- The call stacks once the chain has come to the phase `last`: from app logic on at most the
teardown call is left, and from teardown on no revertible call is. -/
structure Floor (last : Phase) (p : KernelPublicInputs)
    (nonRevertible revertible : List CallRequest) : Prop where
  consistent : Consistent p nonRevertible revertible
  nonRevertible_le : last ≠ .setup → nonRevertible.length ≤ 1
  revertible_nil : last = .teardown → revertible = []

variable {p q : KernelPublicInputs} {nonRevertible revertible : List CallRequest}
  {publicCall : PublicCallData}

section

variable {hashes : KernelHashes}

/-- **An accepted iteration runs a phase that may still run, and the chain has then come to that
phase**, unless it is teardown of a call that enqueues several others. -/
theorem iteration_floor {last phase : Phase}
    (hp : Floor last p nonRevertible revertible)
    (hcall : TeardownEnqueuesAtMostOne (phase, publicCall))
    (h : iteration hashes p publicCall phase = .ok q) : last.rank ≤ phase.rank ∧
      ∃ nonRevertible' revertible', Floor phase q nonRevertible' revertible' := by
  cases phase with
  | setup =>
    obtain ⟨hlt, rest, request, requests, rfl, hlen, hq⟩ := setup_stacks hp.consistent h
    have hlast : last = .setup := by
      by_contra hne
      have := hp.nonRevertible_le hne
      omega
    exact ⟨by simp [hlast], _, _, hq, fun hne => absurd rfl hne, nofun⟩
  | appLogic =>
    obtain ⟨hle, rest, request, requests, rfl, hlen, hq⟩ := appLogic_stacks hp.consistent h
    have hlast : last ≠ .teardown := fun he => absurd (hp.revertible_nil he) (by simp)
    refine ⟨?_, _, _, hq, fun _ => hle, nofun⟩
    cases last with
    | setup => decide
    | appLogic => decide
    | teardown => exact absurd rfl hlast
  | teardown =>
    obtain ⟨-, -, requests, hlen, hq⟩ := teardown_stacks hp.consistent h
    refine ⟨?_, _, _, hq, fun _ => hlen ▸ hcall rfl, fun _ => rfl⟩
    cases last with
    | setup => decide
    | appLogic => decide
    | teardown => decide

theorem runChain_floor (steps : List (Phase × PublicCallData)) :
    ∀ {last : Phase} {p q : KernelPublicInputs} {nonRevertible revertible : List CallRequest},
      Floor last p nonRevertible revertible → (∀ step ∈ steps, TeardownEnqueuesAtMostOne step) →
      runChain hashes p steps = .ok q →
      PhasesMonotone steps ∧ ∀ step ∈ steps, last.rank ≤ step.1.rank := by
  induction steps with
  | nil => intro _ _ _ _ _ _ _ _; exact ⟨.nil, by simp⟩
  | cons step steps ih =>
    intro last p q nonRevertible revertible hp hcalls h
    obtain ⟨phase, publicCall⟩ := step
    rw [runChain, List.foldlM_cons, bind_eq_ok] at h
    obtain ⟨mid, hstep, hrest⟩ := h
    obtain ⟨hrank, nonRevertible', revertible', hmid⟩ :=
      iteration_floor hp (hcalls _ List.mem_cons_self) hstep
    obtain ⟨hmono, hlater⟩ :=
      ih hmid (fun step hstep => hcalls step (List.mem_cons_of_mem _ hstep)) hrest
    refine ⟨List.pairwise_cons.2 ⟨hlater, hmono⟩, fun later hmem => ?_⟩
    rcases List.mem_cons.1 hmem with rfl | hmem
    · exact hrank
    · exact hrank.trans (hlater later hmem)

end

/-- **When no teardown call enqueues more than one public call, the phases of every accepted chain
from an output of the tail are monotone.** -/
theorem phasesMonotone_of_teardown (hashes : KernelHashes) {b : CombinedBuilder} {minCounter : ℕ}
    {constants : CombinedConstantData} {p q : KernelPublicInputs}
    {steps : List (Phase × PublicCallData)} (hb : TailInput b)
    (hp : toTail b minCounter constants = .ok p)
    (hcalls : ∀ step ∈ steps, TeardownEnqueuesAtMostOne step)
    (h : runChain hashes p steps = .ok q) : PhasesMonotone steps := by
  obtain ⟨nonRevertible, revertible, hcons⟩ := toTail_consistent hb hp
  have hfloor : Floor .setup p nonRevertible revertible := ⟨hcons, fun hne => absurd rfl hne, nofun⟩
  exact (runChain_floor steps hfloor hcalls h).1

/-! ### A chain that goes back to setup -/

namespace BackToSetup

/-- Hashes under which a call stack item is told by the address of its contract. -/
def hashes : KernelHashes where
  callStackItem item := item.contractAddress + 100
  siloNoteHash address value := address + value
  siloNullifier address value := address + value
  computePublicDataTreeIndex address slot := address + slot
  computeL2ToL1Hash address _ _ message := address + message.content
  accumulateSha256 _ := Vector.replicate 2 0

def request (address caller : Field) (counter : ℕ) : CallRequest :=
  { hash := address + 100, callerContractAddress := caller, callerContext := Empty.empty,
    startSideEffectCounter := counter, endSideEffectCounter := counter + 1 }

/-- A call without side effects that enqueues the given calls. -/
def call (address caller : Field) (enqueued : Vector CallRequest 4) : PublicCallData :=
  { callStackItem :=
      { contractAddress := address
        publicInputs :=
          { callContext := ⟨caller, address, 0, 1, false, false, false, 0⟩
            argsHash := 0
            returnValues := Vector.replicate 4 0
            contractStorageUpdateRequests := Vector.replicate 16 ⟨0, 0⟩
            contractStorageReads := Vector.replicate 16 ⟨0, 0⟩
            publicCallStackHashes := enqueued.map CallRequest.hash
            newNoteHashes := Vector.replicate 16 ⟨0, 0⟩
            newNullifiers := Vector.replicate 16 ⟨0, 0, 0⟩
            newL2ToL1Msgs := Vector.replicate 2 ⟨0, 0⟩
            unencryptedLogsHash := Vector.replicate 2 0
            unencryptedLogPreimagesLength := 4
            historicalHeader := 0
            proverAddress := 0 }
        functionData := ⟨1, false, false, false⟩
        isExecutionRequest := false }
    publicCallStack := enqueued
    portalContractAddress := 0
    bytecodeHash := 1 }

/-- A transaction with a call of contract 4 for setup, one of contract 5 for app logic, and one of
contract 1 for teardown. -/
def builder : CombinedBuilder :=
  { readRequests := zeroedVec, nullifierKeyValidationRequests := zeroedVec
    newNoteHashes := zeroedVec, newNullifiers := zeroedVec, privateCallStack := zeroedVec
    publicCallStack :=
      { storage := (Vector.replicate 8 Empty.empty).set! 0 (request 1 7 2)
          |>.set! 1 (request 4 7 4) |>.set! 2 (request 5 7 20)
        len := 3, emptyValue := Empty.empty }
    newL2ToL1Msgs := zeroedVec, encryptedLogsHash := Vector.replicate 2 0, unencryptedLogsHash := Vector.replicate 2 0
    encryptedLogPreimagesLength := 0, unencryptedLogPreimagesLength := 0
    newContracts := zeroedVec, publicDataUpdateRequests := zeroedVec
    publicDataReads := zeroedVec }

theorem tailInput_builder : TailInput builder := by
  unfold TailInput
  decide

def firstSteps : List (Phase × PublicCallData) :=
  [(.setup, call 4 7 (Vector.replicate 4 Empty.empty)),
    (.appLogic, call 5 7 (Vector.replicate 4 Empty.empty))]

/-- Then teardown, of a call that enqueues one of contract 2, which teardown runs as well. -/
def inOrder : List (Phase × PublicCallData) :=
  firstSteps ++
    [(.teardown, call 1 7 #v[request 2 1 30, Empty.empty, Empty.empty, Empty.empty]),
      (.teardown, call 2 1 (Vector.replicate 4 Empty.empty))]

/-- Or teardown, of a call that enqueues two of the contracts 2 and 3, and setup, which runs the
second of them. -/
def backToSetup : List (Phase × PublicCallData) :=
  firstSteps ++
    [(.teardown, call 1 7 #v[request 2 1 30, request 3 1 40, Empty.empty, Empty.empty]),
      (.setup, call 3 1 (Vector.replicate 4 Empty.empty))]

theorem accepted {steps : List (Phase × PublicCallData)}
    (h : (toTail builder 10 ⟨1, 1⟩ >>= fun p => runChain hashes p steps).isOk = true) :
    ∃ p q, toTail builder 10 ⟨1, 1⟩ = .ok p ∧ runChain hashes p steps = .ok q := by
  cases hrun : toTail builder 10 ⟨1, 1⟩ >>= fun p => runChain hashes p steps with
  | error msg => simp [hrun, Except.isOk, Except.toBool] at h
  | ok q =>
    obtain ⟨p, hp, hq⟩ := bind_eq_ok.1 hrun
    exact ⟨p, q, hp, hq⟩

theorem accepted_inOrder :
    ∃ p q, toTail builder 10 ⟨1, 1⟩ = .ok p ∧ runChain hashes p inOrder = .ok q :=
  accepted (by decide +kernel)

theorem accepted_backToSetup :
    ∃ p q, toTail builder 10 ⟨1, 1⟩ = .ok p ∧ runChain hashes p backToSetup = .ok q :=
  accepted (by decide +kernel)

end BackToSetup

open BackToSetup in
/-- The chain with one enqueued call. -/
theorem phasesMonotone_inOrder : PhasesMonotone inOrder := by
  obtain ⟨p, q, hp, hq⟩ := accepted_inOrder
  have hcalls : ∀ step ∈ inOrder, TeardownEnqueuesAtMostOne step := by
    unfold TeardownEnqueuesAtMostOne
    decide +kernel
  exact phasesMonotone_of_teardown hashes tailInput_builder hp hcalls hq

open BackToSetup in
/-- **The phases are not monotone in general**: after setup, app logic and a teardown call that
enqueues two calls, a setup iteration is accepted. -/
theorem not_phasesMonotone : ¬ ∀ (hashes : KernelHashes) (b : CombinedBuilder) (minCounter : ℕ)
      (constants : CombinedConstantData) (p q : KernelPublicInputs)
      (steps : List (Phase × PublicCallData)),
      TailInput b → toTail b minCounter constants = .ok p → runChain hashes p steps = .ok q →
        PhasesMonotone steps := by
  intro h
  obtain ⟨p, q, hp, hq⟩ := accepted_backToSetup
  have hmono := h hashes builder 10 ⟨1, 1⟩ p q backToSetup tailInput_builder hp hq
  unfold PhasesMonotone at hmono
  revert hmono
  decide

end Kernel
