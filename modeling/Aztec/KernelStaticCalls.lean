/-
**Static calls in the kernel circuits.**

A static call must not add note hashes, nullifiers, public data updates or messages to L1, and
neither must any call made on its behalf.  The private kernel asks that the arrays of note hashes
and nullifiers of a static call be empty, and that of its messages, which has been validated, be of
length zero.  The public kernel compares the *lengths* of arrays that nothing validates, so that an
item behind an empty one is not seen by the check and is appended all the same.  Neither kernel
looks at who asked for a call: the calls requested by a static call need not be static.
-/

import Aztec.PrivateCallTree
import Aztec.PublicKernelPhases

open PrivateKernel (inner)

namespace StaticCalls

open Noir Failing Kernel PrivateKernel

/-! ### Appending nothing -/

theorem storage_extend_empty {T : Type} {n k : ℕ} {v v' : BoundedVec T n} {w : BoundedVec T k}
    (hw : w.len = 0) (h : v.extendFromBoundedVec w = .ok v') : v'.storage = v.storage := by
  simp only [BoundedVec.extendFromBoundedVec, bind_eq_ok, assert_eq_ok, pure_eq_ok] at h
  obtain ⟨_, -, storage, hloop, rfl⟩ := h
  refine foldlM_invariant (fun _ storage => storage = v.storage) ?_ rfl hloop
  rintro before i s s' rfl hturn
  simp only [hw, Nat.not_lt_zero, if_false, pure_eq_ok] at hturn
  exact hturn.symm

theorem storage_propagate {S U : Type} [Empty U] {n m k : ℕ} {items : Vector S n} {skip : S → Bool}
    {convert : S → U} {v v' : BoundedVec U m} (hskip : ∀ item ∈ items.toList, skip item = true)
    (h : propagate k items skip convert v = .ok v') : v'.storage = v.storage := by
  simp only [propagate, bind_eq_ok] at h
  obtain ⟨fresh, hfresh, hextend⟩ := h
  refine storage_extend_empty ?_ hextend
  have hnone : items.toList.foldlM (fun (fresh : BoundedVec U k) item =>
        if skip item then return fresh else fresh.push (convert item))
      (BoundedVec.new Empty.empty) = Except.ok (BoundedVec.new Empty.empty) := by
    revert hskip
    induction items.toList with
    | nil => intro _; rfl
    | cons item rest ih =>
      intro hskip
      rw [List.foldlM_cons, if_pos (hskip item List.mem_cons_self)]
      exact ih fun item hitem => hskip item (List.mem_cons_of_mem _ hitem)
  rw [hnone, Except.ok.injEq] at hfresh
  subst hfresh
  rfl

theorem all_empty {T : Type} [DecidableEq T] [Empty T] {n : ℕ} {array : Vector T n}
    (hlast : EmptyLast array) (hlen : arrayLength array = 0) :
    ∀ item ∈ array.toList, item = Empty.empty := by
  intro item hitem
  obtain ⟨i, hi, rfl⟩ := List.getElem_of_mem hitem
  rw [Vector.length_toList] at hi
  simpa using eq_empty_of_arrayLength_le hlast hi (by omega)

/-- What the loop of `validate_array` has found after some of the items: the first empty place and
the last non-empty one. -/
structure Found {T : Type} [Empty T] (n : ℕ) (before : List T) (s : ℕ × ℕ) : Prop where
  first_le : s.1 = n ∨ s.1 < before.length ∧ before[s.1]? = some Empty.empty
  first_least : ∀ j, j < before.length → before[j]? = some Empty.empty → s.1 ≤ j
  last_ge : ∀ j item, before[j]? = some item → item ≠ Empty.empty → j ≤ s.2

theorem emptyLast_of_validateArray {T : Type} [DecidableEq T] [Empty T] {n : ℕ}
    {array : Vector T n} {u : Unit} (h : validateArray array = .ok u) : EmptyLast array := by
  have hfound : ∀ (items before : List T) (s : ℕ × ℕ), before.length + items.length = n →
      Found n before s → Found n (before ++ items) ((items.zipIdx before.length).foldl
          (fun (s : ℕ × ℕ) item =>
            if !isEmpty item.1 then (s.1, item.2)
            else if s.1 = n then (item.2, s.2) else s) s) := by
    intro items
    induction items with
    | nil => intro before s _ hs; simpa using hs
    | cons item items ih =>
      intro before s hlen hs
      rw [List.length_cons] at hlen
      rw [List.zipIdx_cons, List.foldl_cons]
      have hnext := ih (before ++ [item])
      rw [List.length_append, List.length_singleton, List.append_assoc,
        List.singleton_append] at hnext
      refine hnext _ (by omega) ?_
      have hget : ∀ j x, (before ++ [item])[j]? = some x →
          j < before.length ∧ before[j]? = some x ∨ j = before.length ∧ x = item := by
        intro j x hx
        rcases Nat.lt_or_ge j before.length with hj | hj
        · rw [List.getElem?_append_left hj] at hx
          exact Or.inl ⟨hj, hx⟩
        · have hlt := (List.getElem?_eq_some_iff.1 hx).1
          rw [List.length_append, List.length_singleton] at hlt
          have hje : j = before.length := by omega
          subst hje
          rw [List.getElem?_concat_length, Option.some.injEq] at hx
          exact Or.inr ⟨rfl, hx.symm⟩
      cases he : isEmpty item with
      | false =>
        have hne : item ≠ Empty.empty := by simpa [isEmpty] using he
        simp only [Bool.not_false, if_true]
        refine ⟨?_, fun j hj hx => ?_, fun j x hx hxne => ?_⟩
        · rcases hs.first_le with hfirst | ⟨hlt, hx⟩
          · exact Or.inl hfirst
          · refine Or.inr ⟨by simp; omega, ?_⟩
            rwa [List.getElem?_append_left hlt]
        · rcases hget j _ hx with ⟨hlt, hx⟩ | ⟨-, hx⟩
          · exact hs.first_least j hlt hx
          · exact absurd hx.symm hne
        · rcases hget j x hx with ⟨hlt, -⟩ | ⟨rfl, -⟩
          · exact hlt.le
          · exact le_rfl
      | true =>
        have hempty : item = Empty.empty := by simpa [isEmpty] using he
        simp only [Bool.not_true, Bool.false_eq_true, if_false]
        by_cases hfirst : s.1 = n
        · rw [if_pos hfirst]
          refine ⟨Or.inr ⟨by simp, by simp [hempty]⟩, fun j hj hx => ?_, fun j x hx hxne => ?_⟩
          · rcases hget j _ hx with ⟨hlt, hx⟩ | ⟨rfl, -⟩
            · have := hs.first_least j hlt hx
              omega
            · exact le_rfl
          · rcases hget j x hx with ⟨-, hx⟩ | ⟨-, rfl⟩
            · exact hs.last_ge j x hx hxne
            · exact absurd hempty hxne
        · rw [if_neg hfirst]
          have hlt : s.1 < before.length := (hs.first_le.resolve_left hfirst).1
          refine ⟨Or.inr ⟨by simp; omega, ?_⟩, fun j hj hx => ?_, fun j x hx hxne => ?_⟩
          · rw [List.getElem?_append_left hlt]
            exact (hs.first_le.resolve_left hfirst).2
          · rcases hget j _ hx with ⟨hj, hx⟩ | ⟨rfl, -⟩
            · exact hs.first_least j hj hx
            · exact hlt.le
          · rcases hget j x hx with ⟨-, hx⟩ | ⟨-, rfl⟩
            · exact hs.last_ge j x hx hxne
            · exact absurd hempty hxne
  have hall := hfound array.toList [] (n, 0) (by simp)
    ⟨Or.inl rfl, fun j hj => absurd hj (Nat.not_lt_zero j), fun j x hx => by simp at hx⟩
  rw [List.nil_append] at hall
  simp only [validateArray, assert_eq_ok, decide_eq_true_eq] at h
  intro i j hij hi
  by_contra hj
  have h1 := hall.first_least i (by simp) (by simpa using hi)
  have h2 := hall.last_ge j array[j] (by simp) hj
  exact absurd (h2.trans (h.trans h1)) (by omega)

/-! ### The private kernel, one iteration -/

/-- The note hashes, nullifiers, public data updates and messages to L1 of two accumulated data are
the same. -/
structure PrivateUnchanged (p q : Kernel.CombinedData) : Prop where
  newNoteHashes_eq : q.newNoteHashes = p.newNoteHashes
  newNullifiers_eq : q.newNullifiers = p.newNullifiers
  publicDataUpdateRequests_eq : q.publicDataUpdateRequests = p.publicDataUpdateRequests
  newL2ToL1Msgs_eq : q.newL2ToL1Msgs = p.newL2ToL1Msgs

def isStaticPrivate (c : PrivateCallData) : Bool :=
  c.callStackItem.publicInputs.callContext.isStaticCall

section Private

variable {hashes : PrivateKernelHashes} {c : PrivateCallData} {out out' : Builder}

/-- The public data updates, which the private kernel never touches. -/
def NoPublicData (p : Kernel.CombinedData) : Prop :=
  p.publicDataUpdateRequests = Vector.replicate 32 Empty.empty

theorem updateEndValues_publicData (h : updateEndValues hashes c out = .ok out') :
    out'.end.publicDataUpdateRequests = out.end.publicDataUpdateRequests ∧
      out'.constants = out.constants := by
  simp only [updateEndValues, bind_eq_ok, pure_eq_ok] at h
  obtain ⟨_, -, reads, -, keys, -, nullifiers, -, noteHashes, -, _, -, privateStack, -, _, -,
    publicStack, -, messages, -, encrypted, -, unencrypted, -, rfl⟩ := h
  exact ⟨rfl, rfl⟩

theorem contractLogic_publicData {data : ContractDeploymentData} {functionData : FunctionData}
    (h : contractLogic hashes c data functionData out = .ok out') :
    out'.end.publicDataUpdateRequests = out.end.publicDataUpdateRequests ∧
      out'.constants = out.constants := by
  unfold contractLogic at h
  split at h
  · simp only [bind_eq_ok, pure_eq_ok] at h
    obtain ⟨_, -, contracts, -, _, -, nullifiers, -, rfl⟩ := h
    exact ⟨rfl, rfl⟩
  · simp only [bind_eq_ok, pure_eq_ok] at h
    obtain ⟨_, -, _, -, rfl⟩ := h
    exact ⟨rfl, rfl⟩

variable {p q : InnerPublicInputs}

theorem init_publicData {txRequest : TxRequest} (h : init hashes txRequest c = .ok p) :
    NoPublicData p.end ∧ p.constants.txContext = txRequest.txContext := by
  simp only [init, bind_eq_ok, pure_eq_ok] at h
  obtain ⟨_, -, _, -, _, -, _, -, nullifiers, -, out₁, hupdate, out₂, hlogic, rfl⟩ := h
  obtain ⟨hdata, hconst⟩ := updateEndValues_publicData hupdate
  obtain ⟨hdata', hconst'⟩ := contractLogic_publicData hlogic
  constructor
  · exact congrArg BoundedVec.storage (hdata'.trans hdata)
  · exact congrArg ConstantData.txContext (hconst'.trans hconst)

theorem inner_publicData (h : PrivateKernel.inner hashes p c = .ok q) :
    NoPublicData q.end ∧ q.constants = p.constants := by
  simp only [PrivateKernel.inner, bind_eq_ok, pure_eq_ok] at h
  obtain ⟨_, -, _, -, _, -, _, -, ⟨request, stack⟩, -, _, -, _, -, out₁, hupdate, _, -, out₂,
    hlogic, rfl⟩ := h
  obtain ⟨hdata, hconst⟩ := updateEndValues_publicData hupdate
  obtain ⟨hdata', hconst'⟩ := contractLogic_publicData hlogic
  exact ⟨congrArg BoundedVec.storage (hdata'.trans hdata), hconst'.trans hconst⟩

/-- The call lists no note hash, nullifier or message to L1. -/
structure PrivateEffectless (c : PrivateCallData) : Prop where
  newNoteHashes : ∀ item ∈ c.callStackItem.publicInputs.newNoteHashes.toList, item = Empty.empty
  newNullifiers : ∀ item ∈ c.callStackItem.publicInputs.newNullifiers.toList, item = Empty.empty
  newL2ToL1Msgs : ∀ item ∈ c.callStackItem.publicInputs.newL2ToL1Msgs.toList, item = Empty.empty

theorem privateEffectless_of_static {u v : Unit}
    (harrays : validateArrays c.callStackItem.publicInputs = .ok u)
    (hchecks : PrivateKernel.performStaticCallChecks c = .ok v)
    (hstatic : isStaticPrivate c = true) : PrivateEffectless c := by
  unfold isStaticPrivate at hstatic
  simp only [PrivateKernel.performStaticCallChecks, hstatic, if_true, bind_eq_ok, assert_eq_ok,
    decide_eq_true_eq, isEmptyArray, List.all_eq_true, isEmpty] at hchecks
  simp only [validateArrays, bind_eq_ok] at harrays
  obtain ⟨_, -, _, -, _, -, _, -, _, -, _, -, _, -, hmessages⟩ := harrays
  obtain ⟨_, hnote, _, hnull, _, hmsg, -⟩ := hchecks
  exact ⟨hnote, hnull, all_empty (emptyLast_of_validateArray hmessages) hmsg⟩

theorem updateEndValues_effectless (h : updateEndValues hashes c out = .ok out')
    (hc : PrivateEffectless c) : out'.end.newNoteHashes.storage = out.end.newNoteHashes.storage ∧
      out'.end.newNullifiers.storage = out.end.newNullifiers.storage ∧
      out'.end.newL2ToL1Msgs.storage = out.end.newL2ToL1Msgs.storage := by
  simp only [updateEndValues, bind_eq_ok, pure_eq_ok] at h
  obtain ⟨_, -, reads, -, keys, -, nullifiers, hnullifiers, noteHashes, hnoteHashes, _, -,
    privateStack, -, _, -, publicStack, -, messages, hmsgs, encrypted, -, unencrypted, -, rfl⟩ := h
  refine ⟨storage_propagate (fun item hitem => ?_) hnoteHashes,
    storage_propagate (fun item hitem => ?_) hnullifiers,
    storage_propagate (fun item hitem => ?_) hmsgs⟩
  · rw [hc.newNoteHashes item hitem]
    rfl
  · rw [hc.newNullifiers item hitem]
    rfl
  · rw [hc.newL2ToL1Msgs item hitem]
    rfl

/-- **An accepted inner iteration adds nothing** when the call is static or lists no effects,
outside of a contract deployment. -/
theorem inner_unchanged (h : PrivateKernel.inner hashes p c = .ok q)
    (hc : isStaticPrivate c = true ∨ PrivateEffectless c) (hp : NoPublicData p.end)
    (hdeploy : p.constants.txContext.isContractDeploymentTx = false) :
    PrivateUnchanged p.end q.end := by
  have hq := (inner_publicData h).1
  simp only [PrivateKernel.inner, bind_eq_ok, pure_eq_ok] at h
  obtain ⟨_, -, _, -, _, -, _, harrays, ⟨request, stack⟩, -, _, -, _, -, out₁, hupdate, _, -, out₂,
    hlogic, rfl⟩ := h
  have heffectless : PrivateEffectless c := by
    rcases hc with hstatic | hc
    · have hchecks := hupdate
      simp only [updateEndValues, bind_eq_ok] at hchecks
      obtain ⟨_, hchecks, -⟩ := hchecks
      exact privateEffectless_of_static harrays hchecks hstatic
    · exact hc
  obtain ⟨hnote, hnull, hmsg⟩ := updateEndValues_effectless hupdate heffectless
  have hconst : out₁.constants.txContext.isContractDeploymentTx = false := by
    rw [(updateEndValues_publicData hupdate).2]
    exact hdeploy
  unfold contractLogic at hlogic
  rw [if_neg (by rw [hconst]; exact Bool.false_ne_true)] at hlogic
  simp only [bind_eq_ok, pure_eq_ok] at hlogic
  obtain ⟨_, -, _, -, rfl⟩ := hlogic
  exact ⟨hnote, hnull, hq.trans hp.symm, hmsg⟩

end Private

/-! ### The public kernel, one iteration -/

/-- The note hashes, nullifiers, public data updates and messages to L1 of two outputs are the
same, in the non-revertible part and in the revertible one. -/
structure PublicUnchanged (p q : KernelPublicInputs) : Prop where
  nonRevertible_newNoteHashes_eq :
    q.endNonRevertible.newNoteHashes = p.endNonRevertible.newNoteHashes
  nonRevertible_newNullifiers_eq :
    q.endNonRevertible.newNullifiers = p.endNonRevertible.newNullifiers
  nonRevertible_publicDataUpdateRequests_eq :
    q.endNonRevertible.publicDataUpdateRequests = p.endNonRevertible.publicDataUpdateRequests
  newNoteHashes_eq : q.end.newNoteHashes = p.end.newNoteHashes
  newNullifiers_eq : q.end.newNullifiers = p.end.newNullifiers
  publicDataUpdateRequests_eq : q.end.publicDataUpdateRequests = p.end.publicDataUpdateRequests
  newL2ToL1Msgs_eq : q.end.newL2ToL1Msgs = p.end.newL2ToL1Msgs

theorem PublicUnchanged.trans {p q r : KernelPublicInputs} (h₁ : PublicUnchanged p q)
    (h₂ : PublicUnchanged q r) : PublicUnchanged p r :=
  ⟨h₂.1.trans h₁.1, h₂.2.trans h₁.2, h₂.3.trans h₁.3, h₂.4.trans h₁.4, h₂.5.trans h₁.5,
    h₂.6.trans h₁.6, h₂.7.trans h₁.7⟩

def isStaticPublic (c : PublicCallData) : Bool :=
  c.callStackItem.publicInputs.callContext.isStaticCall

structure NoItemAfterEmpty (c : PublicCallData) : Prop where
  newNoteHashes : EmptyLast c.callStackItem.publicInputs.newNoteHashes
  newNullifiers : EmptyLast c.callStackItem.publicInputs.newNullifiers
  contractStorageUpdateRequests :
    EmptyLast c.callStackItem.publicInputs.contractStorageUpdateRequests
  newL2ToL1Msgs : EmptyLast c.callStackItem.publicInputs.newL2ToL1Msgs

/-- The call lists no note hash, nullifier, storage update or message to L1. -/
structure PublicEffectless (c : PublicCallData) : Prop where
  newNoteHashes : ∀ item ∈ c.callStackItem.publicInputs.newNoteHashes.toList, item = Empty.empty
  newNullifiers : ∀ item ∈ c.callStackItem.publicInputs.newNullifiers.toList, item = Empty.empty
  contractStorageUpdateRequests :
    ∀ item ∈ c.callStackItem.publicInputs.contractStorageUpdateRequests.toList,
      item = Empty.empty
  newL2ToL1Msgs : ∀ item ∈ c.callStackItem.publicInputs.newL2ToL1Msgs.toList, item = Empty.empty

section Public

variable {hashes : KernelHashes} {c : PublicCallData} {b b' : KernelBuilder}

theorem publicEffectless_of_static {u : Unit} (h : Kernel.performStaticCallChecks c = .ok u)
    (hstatic : isStaticPublic c = true) (hc : NoItemAfterEmpty c) : PublicEffectless c := by
  unfold isStaticPublic at hstatic
  simp only [Kernel.performStaticCallChecks, hstatic, if_true, bind_eq_ok, assert_eq_ok,
    decide_eq_true_eq] at h
  obtain ⟨_, hnote, _, hnull, _, hupdates, _, hmsg, -⟩ := h
  exact ⟨all_empty hc.newNoteHashes hnote, all_empty hc.newNullifiers hnull,
    all_empty hc.contractStorageUpdateRequests hupdates, all_empty hc.newL2ToL1Msgs hmsg⟩

section

variable (hc : PublicEffectless c)
include hc

theorem siloNullifiers_effectless {m : ℕ} {v v' : BoundedVec SideEffectLinkedToNoteHash m}
    (h : siloNullifiers hashes c v = .ok v') : v'.storage = v.storage := by
  unfold siloNullifiers at h
  refine storage_propagate (fun item hitem => ?_) h
  rw [hc.newNullifiers item hitem]
  rfl

theorem siloNoteHashes_effectless {m : ℕ} {v v' : BoundedVec SideEffect m}
    (h : siloNoteHashes hashes c v = .ok v') : v'.storage = v.storage := by
  unfold siloNoteHashes at h
  refine storage_propagate (fun item hitem => ?_) h
  rw [hc.newNoteHashes item hitem]
  rfl

theorem publicDataUpdates_effectless {m : ℕ} {address : Field}
    {v v' : BoundedVec PublicDataUpdateRequest m}
    (h : publicDataUpdates hashes c address v = .ok v') : v'.storage = v.storage := by
  unfold publicDataUpdates at h
  refine storage_propagate (fun item hitem => ?_) h
  rw [hc.contractStorageUpdateRequests item hitem]
  rfl

theorem propagateNewL2ToL1Messages_effectless (h : propagateNewL2ToL1Messages hashes c b = .ok b') :
    PublicUnchanged b.toInner b'.toInner := by
  simp only [propagateNewL2ToL1Messages, bind_eq_ok, pure_eq_ok] at h
  obtain ⟨messages, hmsg, rfl⟩ := h
  have hstorage : messages.storage = b.end.newL2ToL1Msgs.storage := by
    refine storage_propagate (fun item hitem => ?_) hmsg
    rw [hc.newL2ToL1Msgs item hitem]
    rfl
  exact ⟨rfl, rfl, rfl, rfl, rfl, rfl, hstorage⟩

end

theorem accumulateUnencryptedLogs_unchanged {previousHash : Vector Field 2} {previousLength : Field}
    (h : accumulateUnencryptedLogs hashes c b previousHash previousLength = .ok b') :
    PublicUnchanged b.toInner b'.toInner := by
  simp only [accumulateUnencryptedLogs, bind_eq_ok, pure_eq_ok] at h
  obtain ⟨_, -, rfl⟩ := h
  exact ⟨rfl, rfl, rfl, rfl, rfl, rfl, rfl⟩

theorem updatePublicEndNonRevertibleValues_effectless (hc : PublicEffectless c)
    (h : updatePublicEndNonRevertibleValues hashes c b = .ok b') :
    PublicUnchanged b.toInner b'.toInner := by
  simp only [updatePublicEndNonRevertibleValues, propagateNewNullifiersNonRevertible,
    propagateNewNoteHashesNonRevertible, propagateValidNonRevertiblePublicDataUpdateRequests,
    propagateValidNonRevertiblePublicDataReads, bind_eq_ok, pure_eq_ok] at h
  obtain ⟨_, -, _, -, stack, -, _, ⟨nullifiers, hnull, rfl⟩, _, ⟨noteHashes, hnote, rfl⟩, _,
    ⟨updates, hupdates, rfl⟩, reads, -, rfl⟩ := h
  have hnote' := siloNoteHashes_effectless hc hnote
  have hnull' := siloNullifiers_effectless hc hnull
  have hupdates' := publicDataUpdates_effectless hc hupdates
  exact ⟨hnote', hnull', hupdates', rfl, rfl, rfl, rfl⟩

theorem updatePublicEndValues_effectless (hc : PublicEffectless c)
    (h : updatePublicEndValues hashes c b = .ok b') : PublicUnchanged b.toInner b'.toInner := by
  simp only [updatePublicEndValues, propagateNewNullifiers, propagateNewNoteHashes,
    propagateValidPublicDataUpdateRequests, propagateValidPublicDataReads, bind_eq_ok, pure_eq_ok] at h
  obtain ⟨_, -, _, -, stack, -, _, ⟨nullifiers, hnull, rfl⟩, _, ⟨noteHashes, hnote, rfl⟩, b₁,
    hmsg, _, ⟨updates, hupdates, rfl⟩, reads, -, rfl⟩ := h
  have hnote' := siloNoteHashes_effectless hc hnote
  have hnull' := siloNullifiers_effectless hc hnull
  have hupdates' := publicDataUpdates_effectless hc hupdates
  have hmsg' := propagateNewL2ToL1Messages_effectless hc hmsg
  exact ⟨hmsg'.1, hmsg'.2, hmsg'.3, hmsg'.4.trans hnote', hmsg'.5.trans hnull',
    hupdates'.trans hmsg'.6, hmsg'.7⟩

/-- **An accepted public iteration adds nothing** when the call lists no effects, or is static and
lists no item after an empty one. -/
theorem iteration_unchanged {phase : Phase} {p q : KernelPublicInputs}
    (h : iteration hashes p c phase = .ok q)
    (hc : isStaticPublic c = true ∧ NoItemAfterEmpty c ∨ PublicEffectless c) :
    PublicUnchanged p q := by
  have hrun : ∀ {q : KernelPublicInputs}, runNonRevertible hashes p c = .ok q →
      PublicUnchanged p q := by
    intro q h
    simp only [runNonRevertible, bind_eq_ok, pure_eq_ok] at h
    obtain ⟨⟨request, stack⟩, -, _, -, b₁, hupdate, b₂, hlogs, rfl⟩ := h
    have heffectless : PublicEffectless c := by
      rcases hc with ⟨hstatic, hc⟩ | hc
      · have hchecks := hupdate
        simp only [updatePublicEndNonRevertibleValues, bind_eq_ok] at hchecks
        obtain ⟨_, hchecks, -⟩ := hchecks
        exact publicEffectless_of_static hchecks hstatic hc
      · exact hc
    have hupdated := updatePublicEndNonRevertibleValues_effectless heffectless hupdate
    have hinit : PublicUnchanged p (KernelBuilder.toInner { Kernel.initializeEndValues p with
          endNonRevertible :=
            { (Kernel.initializeEndValues p).endNonRevertible with publicCallStack := stack } }) :=
      ⟨rfl, rfl, rfl, rfl, rfl, rfl, rfl⟩
    exact (hinit.trans hupdated).trans (accumulateUnencryptedLogs_unchanged hlogs)
  cases phase with
  | setup =>
    simp only [iteration, publicKernelSetup, bind_eq_ok] at h
    obtain ⟨_, -, _, -, h⟩ := h
    exact hrun h
  | teardown =>
    simp only [iteration, publicKernelTeardown, bind_eq_ok] at h
    obtain ⟨_, -, _, -, h⟩ := h
    exact hrun h
  | appLogic =>
    simp only [iteration, publicKernelAppLogic, bind_eq_ok, pure_eq_ok] at h
    obtain ⟨_, -, _, -, ⟨request, stack⟩, -, _, -, b₁, hupdate, b₂, hlogs, rfl⟩ := h
    have heffectless : PublicEffectless c := by
      rcases hc with ⟨hstatic, hc⟩ | hc
      · have hchecks := hupdate
        simp only [updatePublicEndValues, bind_eq_ok] at hchecks
        obtain ⟨_, hchecks, -⟩ := hchecks
        exact publicEffectless_of_static hchecks hstatic hc
      · exact hc
    have hupdated := updatePublicEndValues_effectless heffectless hupdate
    have hinit : PublicUnchanged p (KernelBuilder.toInner { Kernel.initializeEndValues p with
          «end» := { (Kernel.initializeEndValues p).end with publicCallStack := stack } }) :=
      ⟨rfl, rfl, rfl, rfl, rfl, rfl, rfl⟩
    exact (hinit.trans hupdated).trans (accumulateUnencryptedLogs_unchanged hlogs)

end Public

/-! ### On whose behalf a call is made -/

/-- The private and the public call requests that wait in the private kernel, each with whether it
was made, directly or through further calls, by a static call. -/
structure PrivateOrigins where
  privateStack : List (CallRequest × Bool)
  publicStack : List (CallRequest × Bool)

namespace PrivateOrigins

def push (o : PrivateOrigins) (c : PrivateCallData) (byStatic : Bool) : PrivateOrigins :=
  { privateStack := o.privateStack ++ (privateRequests c).map fun r => (r, byStatic)
    publicStack := o.publicStack ++ (publicRequests c).map fun r => (r, byStatic) }

def ofInit (first : PrivateCallData) : PrivateOrigins :=
  push ⟨[], []⟩ first (isStaticPrivate first)

/-- Whether the next call is made on behalf of a static one. -/
def onBehalf (o : PrivateOrigins) : Bool := (o.privateStack.getLast?.map Prod.snd).getD false

/-- What waits after an inner iteration, which takes the last private request. -/
def next (o : PrivateOrigins) (c : PrivateCallData) : PrivateOrigins :=
  push { o with privateStack := o.privateStack.dropLast } c (isStaticPrivate c || o.onBehalf)

structure Tracks (o : PrivateOrigins) (p : InnerPublicInputs) : Prop where
  privateStack : RequestStack p.end.privateCallStack (o.privateStack.map Prod.fst)
  publicStack : RequestStack p.end.publicCallStack (o.publicStack.map Prod.fst)

theorem push_fst (o : PrivateOrigins) (c : PrivateCallData) (byStatic : Bool) :
    (o.push c byStatic).privateStack.map Prod.fst =
        o.privateStack.map Prod.fst ++ privateRequests c ∧
      (o.push c byStatic).publicStack.map Prod.fst =
        o.publicStack.map Prod.fst ++ publicRequests c := by
  have hfst : ∀ l : List CallRequest, (l.map fun r => (r, byStatic)).map Prod.fst = l := by
    intro l
    rw [List.map_map]
    exact List.map_id _
  simp only [push, List.map_append, hfst, and_self]

variable {hashes : PrivateKernelHashes}

theorem tracks_init {txRequest : TxRequest} {first : PrivateCallData} {p : InnerPublicInputs}
    (h : init hashes txRequest first = .ok p) : (ofInit first).Tracks p := by
  obtain ⟨-, -, hprivate, hpublic⟩ := init_stacks h
  obtain ⟨hfst, hfst'⟩ := push_fst ⟨[], []⟩ first (isStaticPrivate first)
  exact ⟨by rwa [ofInit, hfst], by rwa [ofInit, hfst']⟩

theorem tracks_inner {o : PrivateOrigins} {c : PrivateCallData}
    {p q : InnerPublicInputs} (hp : o.Tracks p) (h : inner hashes p c = .ok q) :
    (o.next c).Tracks q := by
  obtain ⟨rest, request, hstack, -, -, hprivate, hpublic⟩ :=
    inner_stacks h hp.privateStack hp.publicStack
  have hrest : o.privateStack.dropLast.map Prod.fst = rest := by
    rw [List.map_dropLast, hstack, List.dropLast_concat]
  obtain ⟨hfst, hfst'⟩ := push_fst { o with privateStack := o.privateStack.dropLast } c
    (isStaticPrivate c || o.onBehalf)
  constructor
  · rwa [next, hfst, hrest]
  · rwa [next, hfst']

end PrivateOrigins

/-- The same for the two stacks of the public kernel. -/
structure PublicOrigins where
  nonRevertible : List Bool
  revertible : List Bool

def PrivateOrigins.split (o : PrivateOrigins) (minRevertibleSideEffectCounter : ℕ) :
    PublicOrigins :=
  let below := fun e : CallRequest × Bool =>
    decide (e.1.startSideEffectCounter < minRevertibleSideEffectCounter)
  { nonRevertible := (o.publicStack.filter below).map Prod.snd
    revertible := (o.publicStack.filter fun e => !below e).map Prod.snd }

namespace PublicOrigins

/-- Whether the call of the next iteration of a phase is made on behalf of a static one. -/
def onBehalf (o : PublicOrigins) : Phase → Bool
  | .appLogic => o.revertible.getLast?.getD false
  | .setup | .teardown => o.nonRevertible.getLast?.getD false

/-- What waits after an iteration, which takes the last request of its stack and pushes those of
its call. -/
def next (o : PublicOrigins) (phase : Phase) (c : PublicCallData) : PublicOrigins :=
  let pushed := List.replicate (enqueuedCalls c) (isStaticPublic c || o.onBehalf phase)
  match phase with
  | .appLogic => { o with revertible := o.revertible.dropLast ++ pushed }
  | .setup | .teardown => { o with nonRevertible := o.nonRevertible.dropLast ++ pushed }

/-- The public kernel's stacks hold as many requests. -/
def Tracks (o : PublicOrigins) (p : KernelPublicInputs) : Prop :=
  ∃ nonRevertible revertible, Consistent p nonRevertible revertible ∧
    nonRevertible.length = o.nonRevertible.length ∧ revertible.length = o.revertible.length

theorem tracks_tail {hints : TailHints} {o : PrivateOrigins}
    {p : InnerPublicInputs} {q : KernelPublicInputs} (hp : o.Tracks p)
    (h : tail hashes hints p = .ok q) : (o.split p.minRevertibleSideEffectCounter).Tracks q := by
  obtain ⟨-, hq⟩ := tail_stacks h hp.privateStack hp.publicStack
  refine ⟨_, _, hq, ?_, ?_⟩
  · rw [List.filter_map, PrivateOrigins.split, List.length_map, List.length_map]
    rfl
  · rw [List.filter_map, PrivateOrigins.split, List.length_map, List.length_map]
    rfl

theorem tracks_iteration {hashes : KernelHashes} {o : PublicOrigins} {phase : Phase}
    {c : PublicCallData} {p q : KernelPublicInputs} (hp : o.Tracks p)
    (h : iteration hashes p c phase = .ok q) : (o.next phase c).Tracks q := by
  obtain ⟨nonRevertible, revertible, hcons, hnr, hr⟩ := hp
  cases phase with
  | setup =>
    obtain ⟨-, rest, request, requests, rfl, hlen, hq⟩ := setup_stacks hcons h
    refine ⟨_, _, hq, ?_, hr⟩
    simp only [List.length_append, List.length_singleton] at hnr
    simp [next, hlen, ← hnr]
  | appLogic =>
    obtain ⟨-, rest, request, requests, rfl, hlen, hq⟩ := appLogic_stacks hcons h
    refine ⟨_, _, hq, hnr, ?_⟩
    simp only [List.length_append, List.length_singleton] at hr
    simp [next, hlen, ← hr]
  | teardown =>
    obtain ⟨hone, rfl, requests, hlen, hq⟩ := teardown_stacks hcons h
    refine ⟨_, _, hq, ?_, hr⟩
    rw [hone] at hnr
    simp [next, hlen, ← hnr]

end PublicOrigins

/-! ### Runs -/

/-- In every accepted iteration along the private chain a static call, and a call made on behalf of
one, adds nothing. -/
def PrivateSafe (hashes : PrivateKernelHashes) :
    PrivateOrigins → InnerPublicInputs → List PrivateCallData → Prop
  | _, _, [] => True
  | o, p, c :: later =>
    ∀ q, PrivateKernel.inner hashes p c = .ok q →
      (isStaticPrivate c = true ∨ o.onBehalf = true → PrivateUnchanged p.end q.end) ∧
        PrivateSafe hashes (o.next c) q later

/-- Along the private chain every call made on behalf of a static call is static or lists no
effects, and none of these calls is part of a contract deployment. -/
def PrivateCondition (txRequest : TxRequest) : PrivateOrigins → List PrivateCallData → Prop
  | _, [] => True
  | o, c :: later =>
    (o.onBehalf = true → isStaticPrivate c = true ∨ PrivateEffectless c) ∧
      (isStaticPrivate c = true ∨ o.onBehalf = true →
        txRequest.txContext.isContractDeploymentTx = false) ∧
      PrivateCondition txRequest (o.next c) later

/-- In every accepted iteration along the public chain a static call, and a call made on behalf of
one, adds nothing. -/
def PublicSafe (hashes : KernelHashes) :
    PublicOrigins → KernelPublicInputs → List (Phase × PublicCallData) → Prop
  | _, _, [] => True
  | o, p, step :: steps =>
    ∀ q, iteration hashes p step.2 step.1 = .ok q →
      (isStaticPublic step.2 = true ∨ o.onBehalf step.1 = true → PublicUnchanged p q) ∧
        PublicSafe hashes (o.next step.1 step.2) q steps

/-- Along the public chain static calls list no item after an empty one, and every call made on
behalf of a static call is static or lists no effects. -/
def PublicCondition : PublicOrigins → List (Phase × PublicCallData) → Prop
  | _, [] => True
  | o, step :: steps =>
    (isStaticPublic step.2 = true → NoItemAfterEmpty step.2) ∧
      (o.onBehalf step.1 = true → isStaticPublic step.2 = true ∨ PublicEffectless step.2) ∧
      PublicCondition (o.next step.1 step.2) steps

theorem privateSafe_of_condition {txRequest : TxRequest} (later : List PrivateCallData) :
    ∀ {o : PrivateOrigins} {p : InnerPublicInputs}, NoPublicData p.end →
      p.constants.txContext = txRequest.txContext → PrivateCondition txRequest o later →
      PrivateSafe hashes o p later := by
  induction later with
  | nil => intro _ _ _ _ _; trivial
  | cons c later ih =>
    intro o p hp hconst hcond q hq
    obtain ⟨hbehalf, hdeploy, hrest⟩ := hcond
    obtain ⟨hq', hconst'⟩ := inner_publicData hq
    refine ⟨fun hflag => ?_, ih hq' (by rw [hconst', hconst]) hrest⟩
    have hc : isStaticPrivate c = true ∨ PrivateEffectless c := by
      rcases hflag with hstatic | hflag
      · exact Or.inl hstatic
      · exact hbehalf hflag
    exact inner_unchanged hq hc hp (by rw [hconst]; exact hdeploy hflag)

theorem publicSafe_of_condition {hashes : KernelHashes} (steps : List (Phase × PublicCallData)) :
    ∀ {o : PublicOrigins} {p : KernelPublicInputs}, PublicCondition o steps →
      PublicSafe hashes o p steps := by
  induction steps with
  | nil => intro _ _ _; trivial
  | cons step steps ih =>
    intro o p hcond q hq
    obtain ⟨hlast, hbehalf, hrest⟩ := hcond
    refine ⟨fun hflag => iteration_unchanged hq ?_, ih hrest⟩
    have hc : isStaticPublic step.2 = true ∨ PublicEffectless step.2 := by
      rcases hflag with hstatic | hflag
      · exact Or.inl hstatic
      · exact hbehalf hflag
    exact hc.imp_left fun hstatic => ⟨hstatic, hlast hstatic⟩

/-- The accepted public iterations of a chain, with what waits after them. -/
def afterSteps (o : PublicOrigins) (steps : List (Phase × PublicCallData)) : PublicOrigins :=
  steps.foldl (fun o step => o.next step.1 step.2) o

def afterInner (o : PrivateOrigins) (later : List PrivateCallData) : PrivateOrigins :=
  later.foldl PrivateOrigins.next o

theorem tracks_afterInner (later : List PrivateCallData) :
    ∀ {o : PrivateOrigins} {p q : InnerPublicInputs}, o.Tracks p →
      later.foldlM (inner hashes) p = .ok q → (afterInner o later).Tracks q := by
  induction later with
  | nil =>
    intro o p q hp h
    rw [List.foldlM_nil, pure, Applicative.toPure, Monad.toApplicative] at h
    exact (Except.ok.inj h) ▸ hp
  | cons c later ih =>
    intro o p q hp h
    rw [List.foldlM_cons, bind_eq_ok] at h
    obtain ⟨mid, hmid, hrest⟩ := h
    exact ih (PrivateOrigins.tracks_inner hp hmid) hrest

theorem tracks_afterSteps {hashes : KernelHashes} (steps : List (Phase × PublicCallData)) :
    ∀ {o : PublicOrigins} {p q : KernelPublicInputs}, o.Tracks p →
      runChain hashes p steps = .ok q → (afterSteps o steps).Tracks q := by
  induction steps with
  | nil =>
    intro o p q hp h
    rw [runChain, List.foldlM_nil] at h
    exact (Except.ok.inj h) ▸ hp
  | cons step steps ih =>
    intro o p q hp h
    rw [runChain, List.foldlM_cons, bind_eq_ok] at h
    obtain ⟨mid, hmid, hrest⟩ := h
    exact ih (PublicOrigins.tracks_iteration hp hmid) hrest

/-- **Static calls have no effect, nor have the calls made on their behalf**, in every run of the
circuits whose steps meet the two conditions.  The call of the init circuit is not static, and what
is said to wait on the stacks is what waits there. -/
theorem static_calls_have_no_effect (hashes : PrivateKernelHashes) (publicHashes : KernelHashes)
    (txRequest : TxRequest) (first : PrivateCallData) (later : List PrivateCallData)
    (hints : TailHints) (steps : List (Phase × PublicCallData)) (p₀ : InnerPublicInputs)
    (hinit : init hashes txRequest first = .ok p₀)
    (hprivate : PrivateCondition txRequest (.ofInit first) later) :
    isStaticPrivate first = false ∧ PrivateSafe hashes (.ofInit first) p₀ later ∧
      ∀ p q, later.foldlM (PrivateKernel.inner hashes) p₀ = .ok p → tail hashes hints p = .ok q →
        let o := (afterInner (.ofInit first) later).split p.minRevertibleSideEffectCounter
        o.Tracks q ∧ (PublicCondition o steps → PublicSafe publicHashes o q steps ∧
          ∀ r, runChain publicHashes q steps = .ok r → (afterSteps o steps).Tracks r) := by
  obtain ⟨hentry, -, -, -⟩ := init_stacks hinit
  obtain ⟨hp₀, hconst⟩ := init_publicData hinit
  refine ⟨hentry.not_static, privateSafe_of_condition later hp₀ hconst hprivate, ?_⟩
  intro p q hinner htail o
  have htracks := tracks_afterInner later (PrivateOrigins.tracks_init hinit) hinner
  have hq := PublicOrigins.tracks_tail htracks htail
  exact ⟨hq, fun hcond =>
    ⟨publicSafe_of_condition steps hcond, fun r hr => tracks_afterSteps steps hq hr⟩⟩

/-! ### Runs of static calls -/

namespace StaticRuns

open PrivateKernel.OneNested (noRequests noNoteHashes txRequest hints)

theorem exists_ok {α : Type} {x : Circuit α} (h : x.isOk = true) : ∃ a, x = .ok a := by
  cases x with
  | error e => simp [Except.isOk, Except.toBool] at h
  | ok a => exact ⟨a, rfl⟩

/-- Contract 7 calls contract 8 and enqueues a public call of contract 9. -/
def first : PrivateCallData := OneNested.first

def static (requested : Vector CallRequest 4) : PrivateCallData :=
  OneNested.call 8 7 true noNoteHashes requested noRequests

/-- The call of contract 10 by contract 8, which adds a note hash. -/
def adding : PrivateCallData :=
  OneNested.call 10 8 false (noNoteHashes.set! 0 ⟨5, 3⟩) noRequests noRequests

def staticPublic (noteHashes : Vector SideEffect 16) : PublicCallData :=
  let c := BackToSetup.call 9 7 (Vector.replicate 4 Empty.empty)
  { c with
    callStackItem :=
      { c.callStackItem with
        publicInputs :=
          { c.callStackItem.publicInputs with
            callContext :=
              { c.callStackItem.publicInputs.callContext with isStaticCall := true }
            newNoteHashes := noteHashes } } }

def behindEmpty : Vector SideEffect 16 := noNoteHashes.set 1 ⟨5, 3⟩

theorem accepted (noteHashes : Vector SideEffect 16) (h : (do
      let p₀ ← init OneNested.hashes txRequest first
      let p ← inner OneNested.hashes p₀ (static noRequests)
      let q ← tail OneNested.hashes hints p
      iteration BackToSetup.hashes q (staticPublic noteHashes) .appLogic).isOk = true) :
    ∃ p₀ p q r, init OneNested.hashes txRequest first = .ok p₀ ∧
      inner OneNested.hashes p₀ (static noRequests) = .ok p ∧
      tail OneNested.hashes hints p = .ok q ∧
      iteration BackToSetup.hashes q (staticPublic noteHashes) .appLogic = .ok r := by
  obtain ⟨r, hr⟩ := exists_ok h
  simp only [bind_eq_ok] at hr
  obtain ⟨p₀, hinit, p, hinner, q, htail, hr⟩ := hr
  exact ⟨p₀, p, q, r, hinit, hinner, htail, hr⟩

theorem accepted_adding : ∃ p₀ p q, init OneNested.hashes txRequest first = .ok p₀ ∧
      inner OneNested.hashes p₀
        (static (noRequests.set! 0 (OneNested.request 10 8))) = .ok p ∧
      inner OneNested.hashes p adding = .ok q ∧
      q.end.newNoteHashes ≠ p.end.newNoteHashes := by
  have hok : (do
      let p₀ ← init OneNested.hashes txRequest first
      let p ← inner OneNested.hashes p₀
        (static (noRequests.set! 0 (OneNested.request 10 8)))
      let q ← inner OneNested.hashes p adding
      assert (q.end.newNoteHashes ≠ p.end.newNoteHashes) "").isOk = true := by decide +kernel
  obtain ⟨_, h⟩ := exists_ok hok
  simp only [bind_eq_ok, assert_eq_ok, decide_eq_true_eq] at h
  obtain ⟨p₀, hinit, p, hinner, q, hinner', hne⟩ := h
  exact ⟨p₀, p, q, hinit, hinner, hinner', hne⟩

theorem accepted_behindEmpty : ∃ p₀ p q r, init OneNested.hashes txRequest first = .ok p₀ ∧
      inner OneNested.hashes p₀ (static noRequests) = .ok p ∧
      tail OneNested.hashes hints p = .ok q ∧
      iteration BackToSetup.hashes q (staticPublic behindEmpty) .appLogic = .ok r ∧
      r.end.newNoteHashes ≠ q.end.newNoteHashes := by
  have hok : (do
      let p₀ ← init OneNested.hashes txRequest first
      let p ← inner OneNested.hashes p₀ (static noRequests)
      let q ← tail OneNested.hashes hints p
      let r ← iteration BackToSetup.hashes q (staticPublic behindEmpty) .appLogic
      assert (r.end.newNoteHashes ≠ q.end.newNoteHashes) "").isOk = true := by decide +kernel
  obtain ⟨_, h⟩ := exists_ok hok
  simp only [bind_eq_ok, assert_eq_ok, decide_eq_true_eq] at h
  obtain ⟨p₀, hinit, p, hinner, q, htail, r, hr, hne⟩ := h
  exact ⟨p₀, p, q, r, hinit, hinner, htail, hr, hne⟩

theorem noItemAfterEmpty_none : NoItemAfterEmpty (staticPublic noNoteHashes) := by
  constructor
  · unfold EmptyLast
    decide
  · unfold EmptyLast
    decide
  · unfold EmptyLast
    decide
  · unfold EmptyLast
    decide

end StaticRuns

open StaticRuns PrivateKernel.OneNested in
/-- A transaction with a static private call and a static public one. -/
theorem static_calls_have_no_effect_oneNested :
    ∃ p₀ p q r, PrivateKernel.inner hashes p₀ (static noRequests) = .ok p ∧
      PrivateUnchanged p₀.end p.end ∧ tail hashes hints p = .ok q ∧
      iteration BackToSetup.hashes q (staticPublic noNoteHashes) .appLogic = .ok r ∧
      PublicUnchanged q r := by
  obtain ⟨p₀, p, q, r, hinit, hinner, htail, hr⟩ := accepted noNoteHashes (by decide +kernel)
  have hprivate : PrivateCondition txRequest (.ofInit StaticRuns.first) [static noRequests] :=
    ⟨fun h => absurd h (by decide +kernel), fun _ => rfl, trivial⟩
  obtain ⟨-, hsafe, htailSafe⟩ := static_calls_have_no_effect hashes BackToSetup.hashes txRequest
    StaticRuns.first [static noRequests] hints [(.appLogic, staticPublic noNoteHashes)] p₀ hinit
    hprivate
  have hlist : [static noRequests].foldlM (PrivateKernel.inner hashes) p₀ = .ok p := by
    rw [List.foldlM_cons, hinner]
    rfl
  obtain ⟨-, hpublic⟩ := htailSafe p q hlist htail
  obtain ⟨hpublicSafe, -⟩ :=
    hpublic ⟨fun _ => noItemAfterEmpty_none, fun _ => Or.inl rfl, trivial⟩
  exact ⟨p₀, p, q, r, hinner, (hsafe p hinner).1 (Or.inl rfl), htail, hr,
    (hpublicSafe r hr).1 (Or.inl rfl)⟩

open StaticRuns PrivateKernel.OneNested in
/-- **Static calls have effects in general**: in private through a call they request, and in
public through an item behind an empty one. -/
theorem not_static_calls_have_no_effect :
    (¬ ∀ (hashes : PrivateKernelHashes) (txRequest : TxRequest) (first : PrivateCallData)
      (later : List PrivateCallData) (p₀ : InnerPublicInputs),
      init hashes txRequest first = .ok p₀ → PrivateSafe hashes (.ofInit first) p₀ later) ∧
    ¬ ∀ (hashes : KernelHashes) (p q : KernelPublicInputs) (phase : Phase) (c : PublicCallData),
      iteration hashes p c phase = .ok q → isStaticPublic c = true → PublicUnchanged p q := by
  constructor
  · intro h
    obtain ⟨p₀, p, q, hinit, hinner, hinner', hne⟩ := accepted_adding
    have hsafe := h hashes txRequest StaticRuns.first
      [static (noRequests.set! 0 (request 10 8)), adding] p₀ hinit
    obtain ⟨-, hsafe⟩ := hsafe p hinner
    have hflag : ((PrivateOrigins.ofInit StaticRuns.first).next
        (static (noRequests.set! 0 (request 10 8)))).onBehalf = true := by decide +kernel
    exact hne ((hsafe q hinner').1 (Or.inr hflag)).newNoteHashes_eq
  · intro h
    obtain ⟨p₀, p, q, r, -, -, -, hr, hne⟩ := accepted_behindEmpty
    exact hne (h _ _ _ _ _ hr rfl).newNoteHashes_eq

end StaticCalls
