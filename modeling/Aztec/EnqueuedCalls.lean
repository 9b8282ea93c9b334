/-
**The enqueued public calls of a transaction, by phase.**

The sequencer distributes the enqueued public calls of a transaction over the phases setup, app
logic and teardown: it looks for the first revertible call in the order of execution, and takes the
calls before it for setup and teardown.  The kernel of a phase pops its calls from one of the two
call stacks of the tail's output.
-/

import Aztec.PublicKernelPhases
import Mathlib.Data.List.TakeWhile

open List hiding Vector

namespace Sequencer

open Kernel Noir

/-! ### Calls -/

structure PublicCallRequest where
  contractAddress : Field
  functionData : FunctionData
  callContext : CallContext
  parentCallContext : CallContext
  args : List Field
  deriving DecidableEq

open PublicCallRequest

/-- `toCallRequest`, over the hash of the public call stack item of the request. -/
def PublicCallRequest.toCallRequest
    (itemHash : Field → FunctionData → CallContext → List Field → Field)
    (call : PublicCallRequest) : CallRequest where
  hash := itemHash call.contractAddress call.functionData call.callContext call.args
  callerContractAddress := call.parentCallContext.storageContractAddress
  callerContext :=
    if call.callContext.isDelegateCall then
      ⟨call.parentCallContext.msgSender, call.parentCallContext.storageContractAddress⟩
    else Empty.empty
  startSideEffectCounter := call.callContext.startSideEffectCounter
  endSideEffectCounter := 0

/-! ### The distribution -/

/-- An index of `Array.slice`, which counts from the end when it is negative. -/
def sliceIndex (length : ℕ) (index : ℤ) : ℕ :=
  if index < 0 then (length + index).toNat else min index.toNat length

def slice {α : Type} (l : List α) (start stop : ℤ) : List α :=
  (l.take (sliceIndex l.length stop)).drop (sliceIndex l.length start)

/-- `Array.findIndex`, which is `-1` when nothing is found. -/
def findIndex {α : Type} (p : α → Bool) (l : List α) : ℤ :=
  match l.findIdx? p with
  | some i => i
  | none => -1

/-- An element of an array; there is none at a negative index. -/
def at? {α : Type} (l : List α) (index : ℤ) : Option α :=
  if index < 0 then none else l[index.toNat]?

/-- The calls of the phases.  An element that is not there is taken over as undefined. -/
structure Phases where
  setup : List PublicCallRequest
  appLogic : List PublicCallRequest
  teardown : List (Option PublicCallRequest)
  deriving DecidableEq

def requests {n : ℕ} (publicCallStack : Vector CallRequest n) : List CallRequest :=
  publicCallStack.toList.filter fun request => !decide (request = Empty.empty)

section Extract

variable (toCallRequest : PublicCallRequest → CallRequest)

def extractEnqueuedPublicCallsByPhase (publicInputs : KernelPublicInputs)
    (enqueuedPublicFunctionCalls : List PublicCallRequest) : Phases :=
  let publicCallsStack := enqueuedPublicFunctionCalls.reverse
  let nonRevertibleCallStack := requests publicInputs.endNonRevertible.publicCallStack
  let revertibleCallStack := requests publicInputs.end.publicCallStack
  -- calls that are not in the stacks are left out here, and only here
  let callRequestsStack := (publicCallsStack.map toCallRequest).filter fun call =>
    decide (call ∈ revertibleCallStack) || decide (call ∈ nonRevertibleCallStack)
  if callRequestsStack.length = 0 then ⟨[], [], []⟩
  else
    let firstRevertibleCallIndex :=
      findIndex (fun call => decide (call ∈ revertibleCallStack)) callRequestsStack
    if firstRevertibleCallIndex = 0 then ⟨[], publicCallsStack, []⟩
    else
      { setup := slice publicCallsStack 0 (firstRevertibleCallIndex - 1)
        appLogic := slice publicCallsStack firstRevertibleCallIndex publicCallsStack.length
        teardown := [at? publicCallsStack (firstRevertibleCallIndex - 1)] }

/-- The requests that are popped from a call stack, one after the other. -/
def popAll {n : ℕ} : ℕ → BoundedVec CallRequest n → List CallRequest
  | 0, _ => []
  | turns + 1, v =>
    match v.pop with
    | .ok (request, v) => request :: popAll turns v
    | .error _ => []

/-- **The distribution is the one that the kernel makes**: the revertible calls are for app logic,
the last non-revertible one is for teardown and the others are for setup, in the order in which they
are executed; each phase has calls when its flag says so, and the kernel pops the same calls. -/
structure AgreesWithKernel (publicInputs : KernelPublicInputs) (enqueued : List PublicCallRequest)
    (phases : Phases) : Prop where
  appLogic_eq : phases.appLogic = enqueued.reverse.filter fun call =>
    decide (toCallRequest call ∈ requests publicInputs.end.publicCallStack)
  nonRevertible_eq : phases.setup.map some ++ phases.teardown =
    (enqueued.reverse.filter fun call =>
      decide (toCallRequest call ∈ requests publicInputs.endNonRevertible.publicCallStack)).map some
  teardown_le : phases.teardown.length ≤ 1
  needsSetup_iff : publicInputs.needsSetup = true ↔ phases.setup ≠ []
  needsAppLogic_iff : publicInputs.needsAppLogic = true ↔ phases.appLogic ≠ []
  needsTeardown_iff : publicInputs.needsTeardown = true ↔ phases.teardown ≠ []
  pops_appLogic : phases.appLogic.map toCallRequest =
    popAll 5 (arrayToBoundedVec publicInputs.end.publicCallStack)
  pops_nonRevertible : (phases.setup.map some ++ phases.teardown).map (Option.map toCallRequest) =
    (popAll 3 (arrayToBoundedVec publicInputs.endNonRevertible.publicCallStack)).map some

end Extract

/-! ### The stacks of the tail -/

section Stacks

variable {n : ℕ} {l : List CallRequest}

theorem requests_eq {array : Vector CallRequest n} (h : RequestStack array l) :
    requests array = l := by
  rw [requests, h.toList_eq, filter_append, filter_eq_self.2 fun r hr => ?_,
    filter_eq_nil_iff.2 fun r hr => ?_, append_nil]
  · rw [eq_of_mem_replicate hr]
    simp
  · simpa using RequestStack.ne_empty_of_hash (h.hash_ne_zero r hr)

theorem exists_pop {v : BoundedVec CallRequest n} {request : CallRequest}
    (h : Calls v (l ++ [request])) : ∃ v', v.pop = .ok (request, v') := by
  have hlen := h.stack.len_eq
  have hle := h.stack.length_le
  rw [length_append, length_singleton] at hlen hle
  have hget : v.storage[l.length]? = some request := by
    rw [← Vector.getElem?_toList, h.stack.storage_eq]
    simp
  refine ⟨{ v with storage := v.storage.setIfInBounds l.length v.emptyValue, len := l.length }, ?_⟩
  simp [BoundedVec.pop, Failing.bind_eq_ok, hlen, get_eq_ok, assert_eq_ok, hget, pure, Except.pure]

theorem popAll_eq (turns : ℕ) :
    ∀ {v : BoundedVec CallRequest n} {l : List CallRequest}, Calls v l → l.length ≤ turns →
      popAll turns v = l.reverse := by
  induction turns with
  | zero =>
    intro v l _ hlen
    rw [length_eq_zero_iff.1 (Nat.le_zero.1 hlen)]
    rfl
  | succ turns ih =>
    intro v l h hlen
    rw [popAll]
    split
    · next request v' hpop =>
        obtain ⟨l', rfl, hl'⟩ := h.pop hpop
        rw [length_append, length_singleton, Nat.add_le_add_iff_right] at hlen
        rw [ih hl' hlen, reverse_append]
        rfl
    · next e hpop =>
        rcases eq_nil_or_concat l with rfl | ⟨l', request, rfl⟩
        · rfl
        · rw [concat_eq_append] at h
          obtain ⟨v', hv'⟩ := exists_pop h
          rw [hv'] at hpop
          cases hpop

end Stacks

/-! ### The distribution in terms of lists -/

section Lists

variable {α : Type} (first second : List α)

theorem findIndex_append {p : α → Bool} (hfirst : ∀ a ∈ first, p a = false)
    (hsecond : ∀ a ∈ second.head?, p a = true) :
    findIndex p (first ++ second) = if second = [] then -1 else (first.length : ℤ) := by
  have hnone : first.findIdx? p = none := List.findIdx?_eq_none_iff.2 hfirst
  rw [findIndex, List.findIdx?_append, hnone]
  cases second with
  | nil => rfl
  | cons a second => simp [List.findIdx?_cons, hsecond a rfl]

variable {first}

theorem slice_front (hne : first ≠ []) :
    slice (first ++ second) 0 (first.length - 1) = first.dropLast := by
  have hpos := length_pos_iff.2 hne
  have hstop : sliceIndex (first ++ second).length (first.length - 1) = first.length - 1 := by
    rw [sliceIndex, if_neg (by omega), length_append]
    omega
  rw [slice, hstop, take_append_of_le_length (by omega), dropLast_eq_take]
  simp [sliceIndex]

theorem slice_behind : slice (first ++ second) first.length (first ++ second).length = second := by
  have hstart : sliceIndex (first ++ second).length first.length = first.length := by
    rw [sliceIndex, if_neg (by omega), length_append]
    omega
  have hstop : sliceIndex (first ++ second).length (first ++ second).length =
      (first ++ second).length := by
    rw [sliceIndex, if_neg (by omega)]
    omega
  rw [slice, hstart, hstop, take_length, drop_left]

theorem at?_last (hne : first ≠ []) :
    at? (first ++ second) (first.length - 1) = first.getLast? := by
  have hpos := length_pos_iff.2 hne
  have hindex : ((first.length : ℤ) - 1).toNat = first.length - 1 := by omega
  rw [at?, if_neg (by omega), hindex, List.getElem?_append_left (by omega),
    List.getLast?_eq_getElem?]

end Lists

/-! ### The distribution and the stacks -/

section Distribution

variable {toCallRequest : PublicCallRequest → CallRequest} {p : KernelPublicInputs}
  {enqueued first second : List PublicCallRequest}

/-- Every enqueued call is on one of the stacks of the tail. -/
def OnStacks (toCallRequest : PublicCallRequest → CallRequest) (p : KernelPublicInputs)
    (calls : List PublicCallRequest) : Prop :=
  ∀ call ∈ calls, toCallRequest call ∈ requests p.end.publicCallStack ∨
    toCallRequest call ∈ requests p.endNonRevertible.publicCallStack

theorem filter_requests (h : OnStacks toCallRequest p enqueued) :
    (enqueued.reverse.map toCallRequest).filter (fun call =>
      decide (call ∈ requests p.end.publicCallStack) ||
        decide (call ∈ requests p.endNonRevertible.publicCallStack)) =
      enqueued.reverse.map toCallRequest := by
  refine filter_eq_self.2 fun request hrequest => ?_
  obtain ⟨call, hcall, rfl⟩ := mem_map.1 hrequest
  rw [Bool.or_eq_true, decide_eq_true_eq, decide_eq_true_eq]
  exact h call (mem_reverse.1 hcall)

theorem findIndex_revertible (hexec : enqueued.reverse = first ++ second)
    (hfirst : ∀ call ∈ first, toCallRequest call ∉ requests p.end.publicCallStack)
    (hhead : ∀ call ∈ second.head?, toCallRequest call ∈ requests p.end.publicCallStack) :
    findIndex (fun call => decide (call ∈ requests p.end.publicCallStack))
      (enqueued.reverse.map toCallRequest) = if second = [] then -1 else (first.length : ℤ) := by
  rw [hexec, map_append, findIndex_append, length_map]
  · simp
  · intro request hrequest
    obtain ⟨call, hcall, rfl⟩ := mem_map.1 hrequest
    exact decide_eq_false (hfirst call hcall)
  · intro request hrequest
    rw [List.head?_map] at hrequest
    obtain ⟨call, hcall, rfl⟩ := Option.map_eq_some_iff.1 hrequest
    exact decide_eq_true (hhead call hcall)

theorem extract_of_revertible (hon : OnStacks toCallRequest p enqueued)
    (hexec : enqueued.reverse = first ++ second)
    (hfirst : ∀ call ∈ first, toCallRequest call ∉ requests p.end.publicCallStack)
    (hhead : ∀ call ∈ second.head?, toCallRequest call ∈ requests p.end.publicCallStack)
    (hne : second ≠ []) : extractEnqueuedPublicCallsByPhase toCallRequest p enqueued =
      ⟨first.dropLast, second, first.getLast?.toList.map some⟩ := by
  have hindex := findIndex_revertible hexec hfirst hhead
  rw [if_neg hne] at hindex
  have hlength : (enqueued.reverse.map toCallRequest).length ≠ 0 := by
    rw [hexec, length_map, length_append]
    have := length_pos_iff.2 hne
    omega
  simp only [extractEnqueuedPublicCallsByPhase, filter_requests hon, hindex, if_neg hlength]
  cases first with
  | nil =>
    rw [hexec]
    rfl
  | cons call first =>
    have hcons : call :: first ≠ [] := cons_ne_nil call first
    rw [if_neg (by simp; omega), hexec, slice_front second hcons, slice_behind second,
      at?_last second hcons, List.getLast?_eq_some_getLast hcons]
    rfl

theorem extract_of_nonRevertible (hon : OnStacks toCallRequest p enqueued) (hne : enqueued ≠ [])
    (h : ∀ call ∈ enqueued, toCallRequest call ∉ requests p.end.publicCallStack) :
    (extractEnqueuedPublicCallsByPhase toCallRequest p enqueued).teardown = [none] := by
  have hindex := @findIndex_revertible toCallRequest p enqueued enqueued.reverse []
    (append_nil _).symm (fun call hcall => h call (mem_reverse.1 hcall)) nofun
  rw [if_pos rfl] at hindex
  have hlength : (enqueued.reverse.map toCallRequest).length ≠ 0 := by simpa using hne
  simp only [extractEnqueuedPublicCallsByPhase, filter_requests hon, hindex, if_neg hlength]
  rfl

theorem dropLast_append_getLast? {α : Type} (l : List α) :
    l.dropLast.map some ++ l.getLast?.toList.map some = l.map some := by
  rcases eq_nil_or_concat l with rfl | ⟨l, a, rfl⟩
  · rfl
  · simp

section

variable {nonRevertible revertible : List CallRequest} (hp : Consistent p nonRevertible revertible)
include hp

theorem agreesWithKernel_of_order (hdisjoint : ∀ r ∈ nonRevertible, r ∉ revertible)
    (hexec : enqueued.reverse = first ++ second)
    (hfirst : first.map toCallRequest = nonRevertible.reverse)
    (hsecond : second.map toCallRequest = revertible.reverse) (hne : enqueued = [] ∨ second ≠ []) :
    AgreesWithKernel toCallRequest p enqueued
      (extractEnqueuedPublicCallsByPhase toCallRequest p enqueued) := by
  have hnonRevertible := requests_eq hp.nonRevertible_stack
  have hrevertible := requests_eq hp.revertible_stack
  have hmem₁ : ∀ call ∈ first, toCallRequest call ∈ nonRevertible := fun call hcall =>
    mem_reverse.1 (hfirst ▸ mem_map_of_mem hcall)
  have hmem₂ : ∀ call ∈ second, toCallRequest call ∈ revertible := fun call hcall =>
    mem_reverse.1 (hsecond ▸ mem_map_of_mem hcall)
  have hphases : extractEnqueuedPublicCallsByPhase toCallRequest p enqueued =
      ⟨first.dropLast, second, first.getLast?.toList.map some⟩ := by
    rcases hne with rfl | hne
    · obtain ⟨rfl, rfl⟩ := append_eq_nil_iff.1 hexec.symm
      rfl
    · refine extract_of_revertible (fun call hcall => ?_) hexec (fun call hcall => ?_)
        (fun call hcall => ?_) hne
      · rw [← mem_reverse, hexec, mem_append] at hcall
        rw [hrevertible, hnonRevertible]
        exact hcall.elim (fun h => Or.inr (hmem₁ call h)) fun h => Or.inl (hmem₂ call h)
      · rw [hrevertible]
        exact hdisjoint _ (hmem₁ call hcall)
      · rw [hrevertible]
        exact hmem₂ call (List.mem_of_mem_head? hcall)
  have hlen₁ := congrArg List.length hfirst
  have hlen₂ := congrArg List.length hsecond
  rw [length_map, length_reverse] at hlen₁ hlen₂
  rw [hphases]
  constructor
  · rw [hexec, hrevertible, filter_append, filter_eq_nil_iff.2, nil_append, filter_eq_self.2]
    · exact fun call hcall => decide_eq_true (hmem₂ call hcall)
    · exact fun call hcall => by simpa using hdisjoint _ (hmem₁ call hcall)
  · rw [dropLast_append_getLast?, hexec, hnonRevertible, filter_append,
      filter_eq_self.2, filter_eq_nil_iff.2, append_nil]
    · intro call hcall
      simpa using fun h => hdisjoint _ h (hmem₂ call hcall)
    · exact fun call hcall => decide_eq_true (hmem₁ call hcall)
  · cases first.getLast? with
    | none => exact Nat.zero_le 1
    | some call => exact le_rfl
  · rw [hp.needsSetup_iff, ← length_pos_iff, length_dropLast]
    omega
  · rw [hp.needsAppLogic_iff, ← length_pos_iff, hlen₂]
  · rw [hp.needsTeardown_iff, ← hlen₁, length_pos_iff]
    cases first using List.reverseRecOn with
    | nil => simp
    | append_singleton first call _ => simp
  · rw [hsecond, popAll_eq 5 hp.revertible_stack.calls hp.revertible_stack.toStack.length_le]
  · rw [dropLast_append_getLast?, List.map_map, popAll_eq 3 hp.nonRevertible_stack.calls
      hp.nonRevertible_stack.toStack.length_le, ← hfirst, List.map_map]
    rfl

theorem order_of_agreesWithKernel (hon : OnStacks toCallRequest p enqueued)
    (h : AgreesWithKernel toCallRequest p enqueued
      (extractEnqueuedPublicCallsByPhase toCallRequest p enqueued)) :
    (enqueued = [] ∨ ∃ call ∈ enqueued, toCallRequest call ∈ requests p.end.publicCallStack) ∧
      (enqueued = [] ∨ enqueued.map toCallRequest = revertible ++ nonRevertible) := by
  rcases eq_or_ne enqueued [] with hnil | hcalls
  · exact ⟨Or.inl hnil, Or.inl hnil⟩
  have hexists : ∃ call ∈ enqueued, toCallRequest call ∈ requests p.end.publicCallStack := by
    by_contra hnone
    have hall : ∀ call ∈ enqueued, toCallRequest call ∉ requests p.end.publicCallStack :=
      fun call hcall hrequest => hnone ⟨call, hcall, hrequest⟩
    -- the teardown call is undefined
    have hundefined := h.nonRevertible_eq
    rw [extract_of_nonRevertible hon hcalls hall] at hundefined
    have hmem : none ∈ (enqueued.reverse.filter fun call =>
        decide (toCallRequest call ∈ requests p.endNonRevertible.publicCallStack)).map some := by
      rw [← hundefined]
      simp
    simp at hmem
  refine ⟨Or.inr hexists, Or.inr ?_⟩
  -- the calls before the first revertible one, and the others
  let before : PublicCallRequest → Bool := fun call =>
    !decide (toCallRequest call ∈ requests p.end.publicCallStack)
  have hexec : enqueued.reverse =
      enqueued.reverse.takeWhile before ++ enqueued.reverse.dropWhile before :=
    (takeWhile_append_dropWhile).symm
  have hne : enqueued.reverse.dropWhile before ≠ [] := by
    obtain ⟨call, hcall, hrequest⟩ := hexists
    rw [Ne, dropWhile_eq_nil_iff]
    intro hall
    have := hall call (mem_reverse.2 hcall)
    simp [before, hrequest] at this
  have hphases := extract_of_revertible hon hexec
    (fun call hcall => by simpa [before] using mem_takeWhile_imp hcall)
    (fun call hcall => by
      have := List.head?_dropWhile_not before enqueued.reverse
      rw [hcall] at this
      simpa [before] using this) hne
  have h₁ := h.pops_appLogic
  have h₂ := h.pops_nonRevertible
  rw [hphases, popAll_eq 5 hp.revertible_stack.calls hp.revertible_stack.toStack.length_le] at h₁
  rw [hphases, dropLast_append_getLast?, popAll_eq 3 hp.nonRevertible_stack.calls
    hp.nonRevertible_stack.toStack.length_le, List.map_map] at h₂
  have hfirst : (enqueued.reverse.takeWhile before).map toCallRequest = nonRevertible.reverse := by
    refine List.map_injective_iff.2 (Option.some_injective _) ?_
    rw [← h₂, List.map_map]
    rfl
  have hall : enqueued.reverse.map toCallRequest = nonRevertible.reverse ++ revertible.reverse := by
    rw [hexec, map_append, hfirst]
    exact congrArg _ h₁
  rw [← reverse_append, map_reverse] at hall
  exact reverse_injective hall

end

end Distribution

/-- **The distribution is the one of the kernel exactly when** the calls stand in the order of the
stacks, the revertible ones in front, and a revertible call is among them when there is one at
all. -/
theorem agreesWithKernel_iff
    (itemHash : Field → FunctionData → CallContext → List Field → Field) {b : CombinedBuilder}
    {minCounter : ℕ} {constants : CombinedConstantData} {p : KernelPublicInputs}
    (htail : TailInput b) (h : toTail b minCounter constants = .ok p)
    (enqueued : List PublicCallRequest) (hlist : (enqueued.map (toCallRequest itemHash)).Perm
      (requests p.endNonRevertible.publicCallStack ++ requests p.end.publicCallStack)) :
    AgreesWithKernel (toCallRequest itemHash) p enqueued
        (extractEnqueuedPublicCallsByPhase (toCallRequest itemHash) p enqueued) ↔
      (requests p.end.publicCallStack = [] → requests p.endNonRevertible.publicCallStack = []) ∧
        enqueued.map (toCallRequest itemHash) =
          requests p.end.publicCallStack ++ requests p.endNonRevertible.publicCallStack := by
  obtain ⟨nonRevertible, revertible, hp, hdisjoint⟩ := toTail_stacks htail h
  have hnonRevertible := requests_eq hp.nonRevertible_stack
  have hrevertible := requests_eq hp.revertible_stack
  have hon : OnStacks (toCallRequest itemHash) p enqueued := by
    intro call hcall
    have hmem := hlist.subset (mem_map_of_mem hcall)
    exact (mem_append.1 hmem).symm
  rw [hnonRevertible, hrevertible] at hlist ⊢
  constructor
  · intro hagrees
    obtain ⟨hexists, horder⟩ := order_of_agreesWithKernel hp hon hagrees
    rcases eq_or_ne enqueued [] with rfl | hcalls
    · obtain ⟨rfl, rfl⟩ := append_eq_nil_iff.1 (nil_perm.1 hlist)
      exact ⟨fun _ => rfl, rfl⟩
    · refine ⟨fun hnil => ?_, horder.resolve_left hcalls⟩
      obtain ⟨call, -, hrequest⟩ := hexists.resolve_left hcalls
      rw [hrevertible, hnil] at hrequest
      cases hrequest
  · rintro ⟨hexists, horder⟩
    obtain ⟨second, first, hsplit, hsecond, hfirst⟩ := map_eq_append_iff.1 horder
    refine agreesWithKernel_of_order hp hdisjoint (by rw [hsplit, reverse_append])
      (by rw [map_reverse, hfirst]) (by rw [map_reverse, hsecond]) ?_
    rcases eq_or_ne second [] with rfl | hne
    · left
      have hnil : nonRevertible = [] := hexists hsecond.symm
      rw [hnil, map_eq_nil_iff] at hfirst
      rw [hsplit, hfirst, append_nil]
    · exact Or.inr (by simpa using hne)

/-! ### Two enqueued calls -/

namespace TwoCalls

open BackToSetup (builder)

/-- A hash by which the call stack item is told by the address of its contract. -/
def itemHash (address : Field) (_ : FunctionData) (_ : CallContext) (_ : List Field) : Field :=
  address + 100

def call (address : Field) (counter : ℕ) : PublicCallRequest where
  contractAddress := address
  functionData := ⟨1, false, false, false⟩
  callContext := ⟨7, address, 0, 1, false, false, false, counter⟩
  parentCallContext := ⟨0, 7, 0, 1, false, false, false, 0⟩
  args := []

/-- A transaction that enqueued calls of the contracts 4 and 5, with counters 2 and 20. -/
def twoCalls : CombinedBuilder :=
  { builder with
    publicCallStack :=
      { storage := ((Vector.replicate 8 Empty.empty).set! 0
          ((call 4 2).toCallRequest itemHash)).set! 1
          ((call 5 20).toCallRequest itemHash)
        len := 2, emptyValue := Empty.empty } }

theorem tailInput_twoCalls : TailInput twoCalls := by
  unfold TailInput
  decide

theorem accepted {minCounter : ℕ} {nonRevertible revertible : List CallRequest}
    (hok : (toTail twoCalls minCounter ⟨1, 1⟩ >>= fun p => assert (decide
      (requests p.endNonRevertible.publicCallStack = nonRevertible ∧
        requests p.end.publicCallStack = revertible)) "").isOk = true) :
    ∃ p, toTail twoCalls minCounter ⟨1, 1⟩ = .ok p ∧
      requests p.endNonRevertible.publicCallStack = nonRevertible ∧
      requests p.end.publicCallStack = revertible := by
  cases hp : toTail twoCalls minCounter ⟨1, 1⟩ with
  | error msg => simp [hp, bind, Except.bind, Except.isOk, Except.toBool] at hok
  | ok p =>
    refine ⟨p, rfl, ?_⟩
    by_contra hne
    simp [hp, bind, Except.bind, assert, hne, Except.isOk, Except.toBool] at hok

def request₄ : CallRequest := (call 4 2).toCallRequest itemHash

def request₅ : CallRequest := (call 5 20).toCallRequest itemHash

theorem accepted_oneRevertible : ∃ p, toTail twoCalls 10 ⟨1, 1⟩ = .ok p ∧
      requests p.endNonRevertible.publicCallStack = [request₄] ∧
      requests p.end.publicCallStack = [request₅] :=
  accepted (by decide)

theorem accepted_noneRevertible : ∃ p, toTail twoCalls 30 ⟨1, 1⟩ = .ok p ∧
      requests p.endNonRevertible.publicCallStack = [request₄, request₅] ∧
      requests p.end.publicCallStack = [] :=
  accepted (by decide)

end TwoCalls

open TwoCalls in
/-- The distribution of a revertible call and one that is not. -/
theorem agreesWithKernel_oneRevertible : ∃ p, toTail twoCalls 10 ⟨1, 1⟩ = .ok p ∧
      AgreesWithKernel (toCallRequest itemHash) p [call 5 20, call 4 2]
        (extractEnqueuedPublicCallsByPhase (toCallRequest itemHash) p [call 5 20, call 4 2]) := by
  obtain ⟨p, hp, hfirst, hsecond⟩ := accepted_oneRevertible
  refine ⟨p, hp, (agreesWithKernel_iff itemHash tailInput_twoCalls hp _ ?_).2 ?_⟩
  · rw [hfirst, hsecond]
    decide
  · rw [hfirst, hsecond]
    exact ⟨nofun, rfl⟩

open TwoCalls in
/-- **Two calls that are not revertible are not distributed as the kernel does it.** -/
theorem not_agreesWithKernel :
    ¬ ∀ (itemHash : Field → FunctionData → CallContext → List Field → Field)
      (b : CombinedBuilder) (minCounter : ℕ) (constants : CombinedConstantData)
      (p : KernelPublicInputs) (enqueued : List PublicCallRequest),
      TailInput b → toTail b minCounter constants = .ok p →
      (enqueued.map (toCallRequest itemHash)).Perm
        (requests p.endNonRevertible.publicCallStack ++ requests p.end.publicCallStack) →
      AgreesWithKernel (toCallRequest itemHash) p enqueued
        (extractEnqueuedPublicCallsByPhase (toCallRequest itemHash) p enqueued) := by
  intro hagrees
  obtain ⟨p, hp, hfirst, hsecond⟩ := accepted_noneRevertible
  have h := (hagrees itemHash twoCalls 30 ⟨1, 1⟩ p [call 4 2, call 5 20] tailInput_twoCalls hp
    (by rw [hfirst, hsecond]; decide)).nonRevertible_eq
  -- the teardown call is undefined
  have hundefined : none ∈ (extractEnqueuedPublicCallsByPhase
      (toCallRequest itemHash) p [call 4 2, call 5 20]).teardown := by
    simp only [extractEnqueuedPublicCallsByPhase, hfirst, hsecond]
    decide
  have hmem := mem_append_right
    ((extractEnqueuedPublicCallsByPhase (toCallRequest itemHash) p
      [call 4 2, call 5 20]).setup.map some) hundefined
  rw [h] at hmem
  simp at hmem

end Sequencer
