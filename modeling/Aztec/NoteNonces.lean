/-
**The places of the note hashes of a transaction.**

The private kernel tail sorts the note hashes of the private calls, squashes those that are
nullified in the same transaction, and makes each of the others unique with a nonce that is computed
from its place in the array.  The array is then split, the public calls append to both parts, and
the parts are concatenated again.  A note keeps its place when nothing was put before it: when no
call of setup or teardown emits a note hash, or when no private note hash is revertible.
-/

import Aztec.ProverHints
import Aztec.Recombination

open List hiding Vector isEmpty tail
open Option (some)

namespace NoteNonces

open Noir Failing Kernel PrivateKernel

/-! ### What the private calls create -/

/-- What the hashes are relied on for: none is the value of an empty place, and a unique note hash
tells the nonce and the note hash it was made of, as the nonce tells its place. -/
structure NoteHashesIdeal (hashes : PrivateKernelHashes) : Prop where
  noteHash_ne_zero : ∀ address value, hashes.siloNoteHash address value ≠ 0
  nullifier_ne_zero : ∀ address value, hashes.siloNullifier address value ≠ 0
  message_ne_zero : ∀ address version chainId message,
    hashes.computeL2ToL1Hash address version chainId message ≠ 0
  unique_ne_zero : ∀ nonce value, hashes.computeUniqueSiloedNoteHash nonce value ≠ 0
  unique_injective : ∀ nonce value nonce' value', hashes.computeUniqueSiloedNoteHash nonce value =
    hashes.computeUniqueSiloedNoteHash nonce' value' → nonce = nonce' ∧ value = value'
  nonce_injective : ∀ firstNullifier place place',
    hashes.computeNoteHashNonce firstNullifier place =
      hashes.computeNoteHashNonce firstNullifier place' → place = place'

section Created

variable (hashes : PrivateKernelHashes) (c : PrivateCallData)

def createdNoteHashes : List SideEffect :=
  let publicInputs := c.callStackItem.publicInputs
  (publicInputs.newNoteHashes.toList.filter fun noteHash => !decide (noteHash.value = 0)).map
    fun noteHash =>
      { counter := noteHash.counter
        value := hashes.siloNoteHash publicInputs.callContext.storageContractAddress
          noteHash.value }

/-- The nullifiers of a private call, siloed with the note hashes they refer to. -/
def createdNullifiers : List SideEffectLinkedToNoteHash :=
  let publicInputs := c.callStackItem.publicInputs
  let storageContractAddress := publicInputs.callContext.storageContractAddress
  (publicInputs.newNullifiers.toList.filter fun nullifier => !decide (nullifier.value = 0)).map
    fun nullifier =>
      { value := hashes.siloNullifier storageContractAddress nullifier.value
        counter := nullifier.counter
        noteHash := if nullifier.noteHash = 0 then 0
          else hashes.siloNoteHash storageContractAddress nullifier.noteHash }

def nullified (nullifiers : List SideEffectLinkedToNoteHash) : List Field :=
  (nullifiers.filter fun nullifier => decide (nullifier.noteHash ≠ 0)).map
    SideEffectLinkedToNoteHash.noteHash

end Created

/-- What is left of the note hashes when for each nullified value one with that value is
squashed. -/
def Survive (noteHashes : List SideEffect) (values : List Field) (surviving : List SideEffect) :
    Prop :=
  ∃ squashed, noteHashes.Perm (squashed ++ surviving) ∧
    (squashed.map SideEffect.value).Perm values

variable {surviving : List SideEffect} {T : Type} {l : List T} {privateHashes : PrivateKernelHashes}

theorem Survive.perm {noteHashes surviving' : List SideEffect} {values : List Field}
    (h : Survive noteHashes values surviving) (h' : Survive noteHashes values surviving') :
    (surviving.map SideEffect.value).Perm (surviving'.map SideEffect.value) := by
  obtain ⟨squashed, hperm, hvalues⟩ := h
  obtain ⟨squashed', hperm', hvalues'⟩ := h'
  have hboth := (hperm.symm.trans hperm').map SideEffect.value
  rw [map_append, map_append] at hboth
  exact (perm_append_left_iff _).1 (hboth.trans ((hvalues'.trans hvalues.symm).append_right _))

/-! ### The arrays of the private kernel -/

/-- The note hashes and the nullifiers of a builder; its messages are listed without gaps. -/
structure Accumulates (b : CombinedBuilder) (noteHashes : List SideEffect)
    (nullifiers : List SideEffectLinkedToNoteHash) : Prop where
  noteHashes : Stack b.newNoteHashes noteHashes
  noteHashes_emptyValue : b.newNoteHashes.emptyValue = Empty.empty
  nullifiers : Stack b.newNullifiers nullifiers
  nullifiers_emptyValue : b.newNullifiers.emptyValue = Empty.empty
  messages : ProverHints.Filled b.newL2ToL1Msgs

/-- The arrays of an output after the calls: the note hashes are those of the calls, and the
nullifiers are that of the transaction, those of the calls and those of deployments. -/
structure Output (hashes : PrivateKernelHashes) (txRequest : TxRequest)
    (calls : List PrivateCallData) (p : InnerPublicInputs)
    (nullifiers : List SideEffectLinkedToNoteHash) : Prop where
  newNoteHashes : Holds p.end.newNoteHashes (calls.flatMap (createdNoteHashes hashes))
  newNullifiers : Holds p.end.newNullifiers
    ({ value := hashes.txRequest txRequest, noteHash := 0, counter := 0 } :: nullifiers)
  nullifiers_ne_empty : ∀ nullifier ∈ nullifiers, nullifier ≠ Empty.empty
  nullified_eq : nullified nullifiers = nullified (calls.flatMap (createdNullifiers hashes))
  messages : EmptyLast p.end.newL2ToL1Msgs

section PrivateCalls

variable {hashes : PrivateKernelHashes} {c : PrivateCallData} {out out' : Builder}
  {noteHashes : List SideEffect} {nullifiers : List SideEffectLinkedToNoteHash}

theorem nullified_append (l m : List SideEffectLinkedToNoteHash) :
    nullified (l ++ m) = nullified l ++ nullified m := by
  simp [nullified]

section

variable (hideal : NoteHashesIdeal hashes)
include hideal

theorem createdNoteHashes_ne_empty :
    ∀ noteHash ∈ createdNoteHashes hashes c, noteHash ≠ Empty.empty := by
  intro noteHash hmem hempty
  obtain ⟨item, -, rfl⟩ := mem_map.1 hmem
  exact hideal.noteHash_ne_zero _ _ (congrArg SideEffect.value hempty)

theorem createdNullifiers_ne_empty :
    ∀ nullifier ∈ createdNullifiers hashes c, nullifier ≠ Empty.empty := by
  intro nullifier hmem hempty
  obtain ⟨item, -, rfl⟩ := mem_map.1 hmem
  exact hideal.nullifier_ne_zero _ _ (congrArg SideEffectLinkedToNoteHash.value hempty)

theorem updateEndValues_accumulates (h : updateEndValues hashes c out = .ok out')
    (hout : Accumulates out.end noteHashes nullifiers) :
    Accumulates out'.end (noteHashes ++ createdNoteHashes hashes c)
      (nullifiers ++ createdNullifiers hashes c) := by
  simp only [updateEndValues, bind_eq_ok, pure_eq_ok] at h
  obtain ⟨_, -, reads, -, keys, -, nullifiers', hnullifiers, noteHashes', hnoteHashes, _, -,
    privateStack, -, _, -, publicStack, -, messages, hmessages, encrypted, -, unencrypted, -,
    rfl⟩ := h
  obtain ⟨hstack, hempty⟩ := propagate_stack hout.noteHashes hnoteHashes
  obtain ⟨hstack', hempty'⟩ := propagate_stack hout.nullifiers hnullifiers
  exact ⟨hstack, hempty.trans hout.noteHashes_emptyValue, hstack',
    hempty'.trans hout.nullifiers_emptyValue,
    hout.messages.propagate (fun _ _ _ => hideal.message_ne_zero _ _ _ _) hmessages⟩

end

variable {data : ContractDeploymentData} {functionData : FunctionData} {txRequest : TxRequest}
  {calls : List PrivateCallData}

theorem contractLogic_accumulates (h : contractLogic hashes c data functionData out = .ok out')
    (hout : Accumulates out.end noteHashes nullifiers) :
    ∃ deployed, Accumulates out'.end noteHashes (nullifiers ++ deployed) ∧
      (∀ nullifier ∈ deployed, nullifier ≠ Empty.empty) ∧ nullified deployed = [] := by
  unfold contractLogic at h
  split at h
  · simp only [bind_eq_ok, pure_eq_ok] at h
    obtain ⟨_, -, contracts, -, _, -, nullifiers', hpush, rfl⟩ := h
    obtain ⟨hstack, hempty⟩ := hout.nullifiers.push hpush
    refine ⟨_, ⟨hout.noteHashes, hout.noteHashes_emptyValue, hstack,
      hempty.trans hout.nullifiers_emptyValue, hout.messages⟩, ?_, rfl⟩
    intro nullifier hmem
    rw [mem_singleton.1 hmem]
    exact ProverHints.nullifier_ne_empty Nat.one_ne_zero
  · simp only [bind_eq_ok, pure_eq_ok] at h
    obtain ⟨_, -, _, -, rfl⟩ := h
    exact ⟨[], by rwa [append_nil], fun _ hmem => absurd hmem not_mem_nil, rfl⟩

theorem output_of_call {txRequest : TxRequest} {calls : List PrivateCallData} {out₁ : Builder}
    {data : ContractDeploymentData} {functionData : FunctionData} (hideal : NoteHashesIdeal hashes)
    (hout : Accumulates out.end (calls.flatMap (createdNoteHashes hashes))
      ({ value := hashes.txRequest txRequest, noteHash := 0, counter := 0 } :: nullifiers))
    (hne : ∀ nullifier ∈ nullifiers, nullifier ≠ Empty.empty)
    (heq : nullified nullifiers = nullified (calls.flatMap (createdNullifiers hashes)))
    (hupdate : updateEndValues hashes c out = .ok out₁)
    (hlogic : contractLogic hashes c data functionData out₁ = .ok out') :
    ∃ nullifiers', Output hashes txRequest (calls ++ [c]) out'.toInner nullifiers' := by
  obtain ⟨deployed, hdone, hdeployed, hnil⟩ :=
    contractLogic_accumulates hlogic (updateEndValues_accumulates hideal hupdate hout)
  refine ⟨nullifiers ++ createdNullifiers hashes c ++ deployed, ?_, ?_, ?_, ?_,
    hdone.messages.emptyLast⟩
  · have hstorage := hdone.noteHashes.storage_eq
    rw [hdone.noteHashes_emptyValue] at hstorage
    rw [flatMap_append, flatMap_singleton]
    exact hstorage
  · have hstorage := hdone.nullifiers.storage_eq
    rw [hdone.nullifiers_emptyValue, cons_append, cons_append] at hstorage
    exact hstorage
  · intro nullifier hmem
    rcases mem_append.1 hmem with hmem | hmem
    · rcases mem_append.1 hmem with hmem | hmem
      · exact hne nullifier hmem
      · exact createdNullifiers_ne_empty hideal nullifier hmem
    · exact hdeployed nullifier hmem
  · rw [nullified_append, nullified_append, hnil, heq, append_nil, flatMap_append,
      flatMap_singleton, nullified_append]

theorem init_output {p : InnerPublicInputs} (hideal : NoteHashesIdeal hashes)
    (h : init hashes txRequest c = .ok p) :
    ∃ nullifiers, Output hashes txRequest [c] p nullifiers := by
  simp only [init, bind_eq_ok, pure_eq_ok] at h
  obtain ⟨_, -, _, -, _, -, _, -, nullifiers, hpush, out₁, hupdate, out₂, hlogic, rfl⟩ := h
  obtain ⟨hstack, hempty⟩ := (Stack.new _).push hpush
  exact @output_of_call hashes c _ out₂ [] txRequest [] out₁ _ _ hideal
    ⟨Stack.new _, rfl, hstack, hempty, .zeroed⟩ (fun _ hmem => absurd hmem not_mem_nil) rfl
    hupdate hlogic

theorem inner_output {p q : InnerPublicInputs} (hideal : NoteHashesIdeal hashes)
    (hp : Output hashes txRequest calls p nullifiers) (h : PrivateKernel.inner hashes p c = .ok q) :
    ∃ nullifiers', Output hashes txRequest (calls ++ [c]) q nullifiers' := by
  simp only [PrivateKernel.inner, bind_eq_ok, pure_eq_ok] at h
  obtain ⟨_, hfirst, _, -, _, -, _, -, ⟨request, stack⟩, -, _, -, _, -, out₁, hupdate, _, -, out₂,
    hlogic, rfl⟩ := h
  have hcreated : ∀ noteHash ∈ calls.flatMap (createdNoteHashes hashes),
      noteHash ≠ Empty.empty := by
    intro noteHash hmem
    obtain ⟨c', -, hmem⟩ := mem_flatMap.1 hmem
    exact createdNoteHashes_ne_empty hideal noteHash hmem
  -- the nullifier of the transaction was checked not to be zero
  have htx : hashes.txRequest txRequest ≠ 0 := by
    simp only [validatePreviousKernelValues, assert_eq_ok, decide_eq_true_eq] at hfirst
    have hget : p.end.newNullifiers[0]? =
        some ({ value := hashes.txRequest txRequest, noteHash := 0, counter := 0 } :
          SideEffectLinkedToNoteHash) := by
      rw [← Vector.getElem?_toList, hp.newNullifiers]
      rfl
    rw [Vector.getElem?_eq_getElem (by decide), some.injEq] at hget
    rwa [hget] at hfirst
  have hnullifiers : Stack (arrayToBoundedVec p.end.newNullifiers)
      ({ value := hashes.txRequest txRequest, noteHash := 0, counter := 0 } :: nullifiers) := by
    refine stack_arrayToBoundedVec hp.newNullifiers fun nullifier hmem hempty => ?_
    rcases mem_cons.1 hmem with rfl | hmem
    · exact htx (congrArg SideEffectLinkedToNoteHash.value hempty)
    · exact hp.nullifiers_ne_empty nullifier hmem hempty
  exact @output_of_call hashes c _ out₂ nullifiers txRequest calls out₁ _ _ hideal
    ⟨stack_arrayToBoundedVec hp.newNoteHashes hcreated, rfl, hnullifiers, rfl,
      .ofEmptyLast hp.messages⟩ hp.nullifiers_ne_empty hp.nullified_eq hupdate hlogic

theorem inner_run_output (hideal : NoteHashesIdeal hashes) (later : List PrivateCallData) :
    ∀ {calls : List PrivateCallData} {p q : InnerPublicInputs}
      {nullifiers : List SideEffectLinkedToNoteHash}, Output hashes txRequest calls p nullifiers →
      later.foldlM (PrivateKernel.inner hashes) p = .ok q →
      ∃ nullifiers', Output hashes txRequest (calls ++ later) q nullifiers' := by
  induction later with
  | nil =>
    intro calls p q nullifiers hp h
    simp only [foldlM_nil, pure_eq_ok] at h
    subst h
    exact ⟨nullifiers, by rwa [append_nil]⟩
  | cons c later ih =>
    intro calls p q nullifiers hp h
    rw [foldlM_cons, bind_eq_ok] at h
    obtain ⟨mid, hstep, hrest⟩ := h
    obtain ⟨nullifiers', hmid⟩ := inner_output hideal hp hstep
    obtain ⟨nullifiers'', hq⟩ := ih hmid hrest
    exact ⟨nullifiers'', by rwa [append_assoc] at hq⟩

end PrivateCalls

/-! ### Sorting and squashing -/

section Squash

theorem filter_set_perm {T : Type} {p : T → Bool} {l : List T} {k : ℕ} {x e : T}
    (hget : l[k]? = some x) (hx : p x = true) (he : p e = false) :
    (l.filter p).Perm (x :: (l.set k e).filter p) ∧
      ((l.set k e).filter p).Sublist (l.filter p) := by
  induction l generalizing k with
  | nil => cases hget
  | cons y l ih =>
    cases k with
    | zero =>
      rw [List.getElem?_cons_zero, some.injEq] at hget
      subst hget
      rw [set_cons_zero, filter_cons_of_pos hx,
        filter_cons_of_neg (by rw [he]; exact Bool.false_ne_true)]
      exact ⟨.refl _, sublist_cons_self _ _⟩
    | succ k =>
      rw [List.getElem?_cons_succ] at hget
      obtain ⟨hperm, hsub⟩ := ih hget
      rw [set_cons_succ]
      cases hy : p y with
      | true =>
        rw [filter_cons_of_pos hy, filter_cons_of_pos hy]
        exact ⟨(hperm.cons y).trans (.swap x y _), hsub.cons_cons y⟩
      | false =>
        have hneg : ¬p y = true := by rw [hy]; exact Bool.false_ne_true
        rw [filter_cons_of_neg hneg, filter_cons_of_neg hneg]
        exact ⟨hperm, hsub⟩

theorem compact_stack {T : Type} [Empty T] {n : ℕ} {keep : T → Bool} {items : Vector T n}
    {v : BoundedVec T n} (h : compact keep items = .ok v) :
    Stack v (items.toList.filter keep) ∧ v.emptyValue = Empty.empty := by
  refine foldlM_invariant
    (fun before (v : BoundedVec T n) => Stack v (before.filter keep) ∧ v.emptyValue = Empty.empty)
    (fun before item v v' hbefore hturn => ?_) ⟨Stack.new _, rfl⟩ h
  obtain ⟨hstack, hempty⟩ := hbefore
  rw [filter_append]
  cases hkeep : keep item with
  | true =>
    rw [hkeep, if_pos rfl] at hturn
    obtain ⟨hstack', hempty'⟩ := hstack.push hturn
    rw [filter_cons_of_pos hkeep]
    exact ⟨hstack', hempty'.trans hempty⟩
  | false =>
    rw [hkeep, if_neg Bool.false_ne_true] at hturn
    simp only [pure_eq_ok] at hturn
    subst hturn
    rw [filter_cons_of_neg (by rw [hkeep]; exact Bool.false_ne_true), filter_nil, append_nil]
    exact ⟨hstack, hempty⟩

variable (hints : TailHints) (noteHashes : Vector SideEffect 64)
  (nullifiers : Vector SideEffectLinkedToNoteHash 64)

def kept (noteHash : SideEffect) : Bool := noteHash.value ≠ 0

/-- After `i` turns for each of the first `i` nullifiers that refer to a note hash one has been
squashed, and the other nullifiers are in place. -/
structure Squashed (i : ℕ)
    (state : Vector SideEffect 64 × Vector SideEffectLinkedToNoteHash 64) : Prop where
  sublist : (state.1.toList.filter kept).Sublist (noteHashes.toList.filter kept)
  survive : Survive (noteHashes.toList.filter kept) (nullified (nullifiers.toList.take i))
    (state.1.toList.filter kept)
  inPlace : ∀ j (hj : j < 64), i ≤ j ∨ nullifiers[j].noteHash = 0 → state.2[j] = nullifiers[j]

variable {hints noteHashes nullifiers}

theorem nullified_take {i : ℕ} (hi : i < 64) :
    nullified (nullifiers.toList.take (i + 1)) = nullified (nullifiers.toList.take i) ++
      if nullifiers[i].noteHash = 0 then [] else [nullifiers[i].noteHash] := by
  have hget : nullifiers.toList[i]? = some nullifiers[i] := by simp [hi]
  rw [take_add_one, hget, Option.toList_some, nullified_append]
  congr 1
  split
  · next hzero => simp [nullified, hzero]
  · next hne => simp [nullified, hne]

theorem squashStep_squashed {i : ℕ} (hi : i < 64)
    {state state' : Vector SideEffect 64 × Vector SideEffectLinkedToNoteHash 64}
    (hinv : Squashed noteHashes nullifiers i state) (h : squashStep hints state i = .ok state') :
    Squashed noteHashes nullifiers (i + 1) state' := by
  obtain ⟨hsub, hsurvive, hplace⟩ := hinv
  simp only [squashStep, bind_eq_ok, get_eq_ok, Vector.getElem?_eq_getElem hi, some.injEq,
    exists_eq_left'] at h
  rw [hplace i hi (.inl le_rfl)] at h
  by_cases hzero : nullifiers[i].noteHash = 0
  · rw [if_neg (not_not.2 hzero)] at h
    simp only [pure_eq_ok] at h
    subst h
    refine ⟨hsub, ?_, fun j hj hlater => hplace j hj (hlater.imp_left Nat.le_of_succ_le)⟩
    rwa [nullified_take hi, if_pos hzero, append_nil]
  · rw [if_pos hzero] at h
    simp only [bind_eq_ok, assert_eq_ok, decide_eq_true_eq, get_eq_ok, pure_eq_ok] at h
    obtain ⟨_, hpos, noteHash, hget, _, hvalue, _, -, rfl⟩ := h
    have hkept : kept noteHash = true := decide_eq_true (hvalue ▸ hzero)
    rw [← Vector.getElem?_toList] at hget
    obtain ⟨hperm, hsub'⟩ := filter_set_perm hget hkept
      (e := Empty.empty) (decide_eq_false (not_not.2 rfl))
    refine ⟨?_, ?_, fun j hj hlater => ?_⟩
    · rw [Vector.toList_setIfInBounds]
      exact hsub'.trans hsub
    · obtain ⟨squashed, hsquashed, hvalues⟩ := hsurvive
      rw [Vector.toList_setIfInBounds]
      refine ⟨squashed ++ [noteHash], ?_, ?_⟩
      · rw [append_assoc, singleton_append]
        exact hsquashed.trans (hperm.append_left squashed)
      · rw [nullified_take hi, if_neg hzero, map_append, map_singleton, ← hvalue]
        exact hvalues.append_right _
    · have hne : i ≠ j := by
        rintro rfl
        rcases hlater with hle | hnone
        · omega
        · exact hzero hnone
      rw [Vector.getElem_setIfInBounds_ne hj hne]
      exact hplace j hj (hlater.imp_left Nat.le_of_succ_le)

theorem squash_squashed :
    ∀ k ≤ 64, ∀ {state : Vector SideEffect 64 × Vector SideEffectLinkedToNoteHash 64},
      (List.range k).foldlM (squashStep hints) (noteHashes, nullifiers) = .ok state →
      Squashed noteHashes nullifiers k state := by
  intro k
  induction k with
  | zero =>
    intro _ state h
    simp only [range_zero, foldlM_nil, pure_eq_ok] at h
    subst h
    exact ⟨.refl _, ⟨[], .refl _, .nil⟩, fun _ _ _ => rfl⟩
  | succ k ih =>
    intro hk state h
    rw [range_succ, foldlM_append, bind_eq_ok] at h
    obtain ⟨mid, hmid, hstep⟩ := h
    simp only [foldlM_cons, foldlM_nil, bind_pure] at hstep
    exact squashStep_squashed hk (ih (by omega) hmid) hstep

/-- **What the squash leaves**: of the note hashes those that survive, in their order, and of the
nullifiers the first, when it refers to no note hash. -/
theorem matchNullifiers_survive
    {squashed : BoundedVec SideEffect 64 × BoundedVec SideEffectLinkedToNoteHash 64}
    (h : matchNullifiersToNoteHashesAndSquash hints noteHashes nullifiers = .ok squashed) :
    ∃ surviving rest, Stack squashed.1 surviving ∧ squashed.1.emptyValue = Empty.empty ∧
      surviving.Sublist (noteHashes.toList.filter kept) ∧
      Survive (noteHashes.toList.filter kept) (nullified nullifiers.toList) surviving ∧
      Stack squashed.2 rest ∧ squashed.2.emptyValue = Empty.empty ∧
      (∀ nullifier ∈ rest, nullifier ≠ Empty.empty) ∧
      ((getElem nullifiers 0 first_lt_sixtyFour).noteHash = 0 →
        (getElem nullifiers 0 first_lt_sixtyFour).value ≠ 0 →
          rest.head? = some (getElem nullifiers 0 first_lt_sixtyFour)) := by
  simp only [matchNullifiersToNoteHashesAndSquash, bind_eq_ok, pure_eq_ok] at h
  obtain ⟨state, hstate, left, hleft, left', hleft', rfl⟩ := h
  obtain ⟨hsub, hsurvive, hplace⟩ := squash_squashed 64 le_rfl hstate
  obtain ⟨hstack, hempty⟩ := compact_stack hleft
  obtain ⟨hstack', hempty'⟩ := compact_stack hleft'
  rw [take_of_length_le (by simp)] at hsurvive
  refine ⟨_, _, hstack, hempty, hsub, hsurvive, hstack', hempty', fun nullifier hmem hnone => ?_,
    fun hnone hvalue => ?_⟩
  · exact of_decide_eq_true (mem_filter.1 hmem).2 (congrArg _ hnone)
  have hfirst := hplace 0 (by decide) (.inr hnone)
  have hlist : state.2.toList = state.2[0] :: state.2.toList.tail := by
    refine ext_getElem? fun i => ?_
    cases i with
    | zero => simp
    | succ i => simp
  rw [hlist, filter_cons_of_pos (by rw [hfirst]; exact decide_eq_true hvalue), hfirst]
  rfl

end Squash

/-! ### The tail -/

/-- The copies that the tail is given are reorderings of its arrays.  The check that the tail makes
of them accepts others as well. -/
structure Reorders (hints : TailHints) (p : InnerPublicInputs) : Prop where
  noteHashes : Reordered p.end.newNoteHashes hints.sortedNewNoteHashes
  nullifiers : Reordered p.end.newNullifiers hints.sortedNewNullifiers

/-- Note hashes made unique with the nonces of their places. -/
def makeUnique (hashes : PrivateKernelHashes) (firstNullifier : Field)
    (noteHashes : List SideEffect) : List SideEffect :=
  noteHashes.mapIdx fun i noteHash =>
    { value := hashes.computeUniqueSiloedNoteHash (hashes.computeNoteHashNonce firstNullifier i)
        noteHash.value
      counter := noteHash.counter }

/-- The note hashes and the nullifiers in the two parts of the inputs of the public kernel. -/
structure PublicHolds (p : KernelPublicInputs) (low high : List SideEffect)
    (lowNullifiers highNullifiers : List SideEffectLinkedToNoteHash) : Prop where
  tidy : p.Tidy
  nonRevertible : Holds p.endNonRevertible.newNoteHashes low
  revertible : Holds p.end.newNoteHashes high
  nonRevertibleNullifiers : Holds p.endNonRevertible.newNullifiers lowNullifiers
  revertibleNullifiers : Holds p.end.newNullifiers highNullifiers
  noteHashes_ne_empty : ∀ noteHash ∈ low ++ high, noteHash ≠ Empty.empty
  nullifiers_ne_empty : ∀ nullifier ∈ lowNullifiers ++ highNullifiers, nullifier ≠ Empty.empty

section Tail

variable {hashes : PrivateKernelHashes} {hints : TailHints}

variable {T : Type} {n : ℕ} {surviving : List SideEffect} {firstNullifier : Field}

theorem pairwise_filter_of_increasing [Empty T] [Ordered T] {k : ℕ} {items : Vector T n}
    {p : T → Bool} (h : IncreasingThenEmpty items k) (hp : p Empty.empty = false) :
    (items.toList.filter p).Pairwise fun x y => Ordered.counter x < Ordered.counter y := by
  rw [pairwise_filter, pairwise_iff_getElem]
  intro i j hi hj hij _ hkept
  simp only [Vector.length_toList] at hi hj
  rw [Vector.getElem_toList] at hkept
  rw [Vector.getElem_toList, Vector.getElem_toList]
  refine h.increasing i j hij hj ?_
  by_contra hge
  rw [h.eq_empty j hj (not_lt.1 hge), hp] at hkept
  cases hkept

theorem first_of_reordered {T : Type} [DecidableEq T] [Empty T] [Ordered T] {n : ℕ} (hn : 0 < n)
    {original sorted : Vector T n} {item : T} (h : Reordered original sorted)
    (hmem : item ∈ original.toList) (hne : item ≠ Empty.empty)
    (hcounter : Ordered.counter item = 0) : sorted[0] = item := by
  obtain ⟨hperm, k, -, hincreasing⟩ := h
  obtain ⟨i, hi, hget⟩ := getElem_of_mem (hperm.mem_iff.2 hmem)
  simp only [Vector.length_toList] at hi
  rw [Vector.getElem_toList] at hget
  have hk : i < k := by
    by_contra hge
    exact hne (hget.symm.trans (hincreasing.eq_empty i hi (not_lt.1 hge)))
  rcases Nat.eq_zero_or_pos i with rfl | hpos
  · exact hget
  · have hlt := hincreasing.increasing 0 i hpos hi hk
    rw [hget, hcounter] at hlt
    exact absurd hlt (Nat.not_lt_zero _)

theorem applyNoteHashNonces_stack {noteHashes v : BoundedVec SideEffect 64}
    {nullifiers : BoundedVec SideEffectLinkedToNoteHash 64} {rest : List SideEffectLinkedToNoteHash}
    {first : SideEffectLinkedToNoteHash} (hstack : Stack noteHashes surviving)
    (hempty : noteHashes.emptyValue = Empty.empty)
    (hkept : ∀ noteHash ∈ surviving, noteHash.value ≠ 0) (hrest : Stack nullifiers rest)
    (hfirst : rest.head? = some first)
    (h : applyNoteHashNonces hashes noteHashes nullifiers = .ok v) :
    Stack v (makeUnique hashes first.value surviving) ∧ v.emptyValue = Empty.empty := by
  obtain ⟨rest, rfl⟩ : ∃ rest', rest = first :: rest' := by
    cases rest with
    | nil => cases hfirst
    | cons e rest => exact ⟨rest, by rw [some.inj hfirst]⟩
  simp only [applyNoteHashNonces, bind_eq_ok, get_eq_ok, pure_eq_ok] at h
  obtain ⟨_, -, e, he, rfl⟩ := h
  rw [← Vector.getElem?_toList, hrest.storage_eq, cons_append, List.getElem?_cons_zero,
    some.injEq] at he
  subst he
  have hlength : (makeUnique hashes first.value surviving).length = surviving.length := by
    simp [makeUnique]
  refine ⟨⟨?_, by rw [hlength]; exact hstack.len_eq⟩, hempty⟩
  have hle := hstack.length_le
  refine ext_getElem (by simp [hlength]; omega) fun i hi hi' => ?_
  have hi : i < 64 := by simpa using hi
  have hitem : noteHashes.storage[i]? =
      (surviving ++ List.replicate (64 - surviving.length) Empty.empty)[i]? := by
    rw [← Vector.getElem?_toList, hstack.storage_eq, hempty]
  rw [Vector.getElem?_eq_getElem hi] at hitem
  rw [Vector.getElem_toList, Vector.getElem_mapFinIdx]
  rcases Nat.lt_or_ge i surviving.length with hlt | hge
  · rw [List.getElem?_append_left hlt, List.getElem?_eq_getElem hlt, some.injEq] at hitem
    rw [hitem, if_pos (hkept _ (getElem_mem hlt)), getElem_append_left (by rwa [hlength])]
    simp [makeUnique]
  · rw [List.getElem?_append_right hge, List.getElem?_replicate, if_pos (by omega),
      some.injEq] at hitem
    have hzero : (Empty.empty : SideEffect).value = 0 := rfl
    rw [hitem, if_neg (not_not.2 hzero), getElem_append_right (by rwa [hlength])]
    simp [hempty]

theorem makeUnique_ne_empty (hideal : NoteHashesIdeal hashes) :
    ∀ noteHash ∈ makeUnique hashes firstNullifier surviving, noteHash ≠ Empty.empty := by
  intro noteHash hmem hnone
  obtain ⟨i, hi, rfl⟩ := mem_mapIdx.1 hmem
  exact hideal.unique_ne_zero _ _ (congrArg SideEffect.value hnone)

theorem pairwise_makeUnique (h : surviving.Pairwise fun x y => x.counter < y.counter) :
    (makeUnique hashes firstNullifier surviving).Pairwise fun x y => x.counter ≤ y.counter := by
  rw [pairwise_iff_getElem] at h ⊢
  intro i j hi hj hij
  simp only [makeUnique, length_mapIdx] at hi hj
  simpa [makeUnique] using (h i j hi hj hij).le

theorem holds_of_splitBy [DecidableEq T] [Empty T] {a b : ℕ} {below : T → Bool} {v : BoundedVec T n}
    {l : List T} {parts : BoundedVec T a × BoundedVec T b} (hstack : Stack v l)
    (hempty : v.emptyValue = Empty.empty) (hne : ∀ e ∈ l, e ≠ Empty.empty)
    (h : splitBy below v.storage = .ok parts) : Holds parts.1.storage (l.filter below) ∧
      Holds parts.2.storage (l.filter fun item => !below item) := by
  obtain ⟨hl, hr, hel, her⟩ := splitBy_stack h
  have hfilter : ∀ q : T → Bool,
      v.storage.toList.filter (fun item => !isEmpty item && q item) = l.filter q := by
    intro q
    have hitems := nonEmpty_of_stack hstack hempty hne
    rw [nonEmpty] at hitems
    rw [← hitems, filter_filter]
    simp [Bool.and_comm]
  rw [hfilter] at hl hr
  exact ⟨by rw [Holds, hl.storage_eq, hel], by rw [Holds, hr.storage_eq, her]⟩

/-- **What the tail hands to the public kernel**: the surviving note hashes, unique at their places,
in two parts, and the nullifier of the transaction before all others. -/
theorem tail_places {txRequest : TxRequest} {calls : List PrivateCallData} {p : InnerPublicInputs}
    {nullifiers : List SideEffectLinkedToNoteHash} {out : KernelPublicInputs}
    (hideal : NoteHashesIdeal hashes) (hp : Output hashes txRequest calls p nullifiers)
    (hreorders : Reorders hints p) (h : tail hashes hints p = .ok out) :
    ∃ surviving low high lowNullifiers highNullifiers,
      Survive (calls.flatMap (createdNoteHashes hashes))
        (nullified (calls.flatMap (createdNullifiers hashes))) surviving ∧
      PublicHolds out low high lowNullifiers highNullifiers ∧
      low ++ high = makeUnique hashes (hashes.txRequest txRequest) surviving ∧
      (0 < p.minRevertibleSideEffectCounter → lowNullifiers.head? =
        some { value := hashes.txRequest txRequest, noteHash := 0, counter := 0 }) ∧
      (p.minRevertibleSideEffectCounter = 0 → lowNullifiers = [] ∧ highNullifiers.head? =
        some { value := hashes.txRequest txRequest, noteHash := 0, counter := 0 }) := by
  obtain ⟨hnoteHashes, hnullifiers, hne, hnullified, hmessages⟩ := hp
  set tx : SideEffectLinkedToNoteHash :=
    { value := hashes.txRequest txRequest, noteHash := 0, counter := 0 } with htx
  simp only [tail, bind_eq_ok] at h
  obtain ⟨_, -, _, hfirst, _, -, _, -, _, -, _, -, squashed, hsquash, unique, hunique, htail⟩ := h
  -- the nullifier of the transaction is not zero, and it comes first in the reordering
  have hvalue : tx.value ≠ 0 := by
    simp only [validatePreviousKernelValues, assert_eq_ok, decide_eq_true_eq] at hfirst
    have hget : p.end.newNullifiers[0]? = some tx := by
      rw [← Vector.getElem?_toList, hnullifiers]
      rfl
    rw [Vector.getElem?_eq_getElem (by decide), some.injEq] at hget
    rwa [hget] at hfirst
  have htxne : tx ≠ Empty.empty := fun he => hvalue (congrArg SideEffectLinkedToNoteHash.value he)
  have hsortedFirst : hints.sortedNewNullifiers[0] = tx :=
    first_of_reordered (by decide) hreorders.nullifiers (by rw [hnullifiers]; simp) htxne rfl
  obtain ⟨surviving, rest, hstack, hempty, hsub, hsurvive, hstack', hempty', hrestne, hhead⟩ :=
    matchNullifiers_survive hsquash
  have hhead := hsortedFirst ▸ hhead (by rw [hsortedFirst]) (by rwa [hsortedFirst])
  -- what is sorted is what the calls created
  have hcreated : (hints.sortedNewNoteHashes.toList.filter kept).Perm
      (calls.flatMap (createdNoteHashes hashes)) := by
    have hperm := hreorders.noteHashes.1.filter kept
    rwa [hnoteHashes.filter_eq rfl fun noteHash hmem => ?_] at hperm
    obtain ⟨c, -, hmem⟩ := mem_flatMap.1 hmem
    obtain ⟨item, -, rfl⟩ := mem_map.1 hmem
    exact decide_eq_true (hideal.noteHash_ne_zero _ _)
  have htransient : (nullified hints.sortedNewNullifiers.toList).Perm
      (nullified (calls.flatMap (createdNullifiers hashes))) := by
    have hperm := (hreorders.nullifiers.1.filter fun nullifier =>
      decide (nullifier.noteHash ≠ 0)).map SideEffectLinkedToNoteHash.noteHash
    have horiginal : nullified p.end.newNullifiers.toList = nullified nullifiers := by
      rw [hnullifiers, nullified_append]
      simp [nullified, htx, Empty.empty]
    rw [← hnullified, ← horiginal]
    exact hperm
  have hsurvives : Survive (calls.flatMap (createdNoteHashes hashes))
      (nullified (calls.flatMap (createdNullifiers hashes))) surviving := by
    obtain ⟨gone, hgone, hvalues⟩ := hsurvive
    exact ⟨gone, hcreated.symm.trans hgone, hvalues.trans htransient⟩
  obtain ⟨k, -, hincreasing⟩ := hreorders.noteHashes.2
  have hsorted : surviving.Pairwise fun x y => x.counter < y.counter :=
    (pairwise_filter_of_increasing hincreasing rfl).sublist hsub
  have hkept : ∀ noteHash ∈ surviving, noteHash.value ≠ 0 := fun noteHash hmem =>
    of_decide_eq_true (mem_filter.1 (hsub.subset hmem)).2
  obtain ⟨hplaces, hplacesEmpty⟩ := applyNoteHashNonces_stack hstack hempty hkept hstack' hhead
    hunique
  have hplacesne := @makeUnique_ne_empty hashes surviving tx.value hideal
  have htidy := toTail_tidy (ProverHints.Filled.ofEmptyLast hmessages).emptyLast htail
  simp only [Builder.toTail, Kernel.toTail, CombinedBuilder.split, bind_eq_ok, pure_eq_ok] at htail
  obtain ⟨_, ⟨noteHashes, hsplit, nullifiers', hsplit', calls', -, rfl⟩, rfl⟩ := htail
  obtain ⟨hlow, hhigh⟩ := holds_of_splitBy hplaces hplacesEmpty hplacesne hsplit
  obtain ⟨hlow', hhigh'⟩ := holds_of_splitBy hstack' hempty' hrestne hsplit'
  refine ⟨surviving, _, _, _, _, hsurvives, ⟨htidy, hlow, hhigh, hlow', hhigh', ?_, ?_⟩,
    filter_append_of_sorted (pairwise_makeUnique hsorted), ?_, ?_⟩
  · intro noteHash hmem
    rcases mem_append.1 hmem with hmem | hmem
    · exact hplacesne noteHash (mem_of_mem_filter hmem)
    · exact hplacesne noteHash (mem_of_mem_filter hmem)
  · intro nullifier hmem
    rcases mem_append.1 hmem with hmem | hmem
    · exact hrestne nullifier (mem_of_mem_filter hmem)
    · exact hrestne nullifier (mem_of_mem_filter hmem)
  · intro hpos
    obtain ⟨rest', rfl⟩ : ∃ rest', rest = tx :: rest' := List.head?_eq_some_iff.1 hhead
    have hbelow :
        tx.counter < (PrivateKernel.initializeEndValues p).minRevertibleSideEffectCounter := hpos
    rw [filter_cons_of_pos (by simpa using hbelow)]
    rfl
  · intro hzero
    have hmin : (PrivateKernel.initializeEndValues p).minRevertibleSideEffectCounter = 0 := hzero
    rw [hmin]
    constructor
    · exact filter_eq_nil_iff.2 fun nullifier _ => by simp
    · rw [filter_eq_self.2 fun nullifier _ => by simp]
      exact hhead

end Tail

/-! ### The public calls -/

def EmitsNone (publicCall : PublicCallData) : Prop :=
  ∀ noteHash ∈ publicCall.callStackItem.publicInputs.newNoteHashes.toList, noteHash.value = 0

/-- The call puts nothing before a private note hash: it is one of app logic, or it emits no note
hash, or no private note hash is revertible. -/
def StepOk (out : KernelPublicInputs) (step : Phase × PublicCallData) : Prop :=
  step.1 = .appLogic ∨ EmitsNone step.2 ∨ nonEmpty out.end.newNoteHashes = []

section PublicCalls

variable {hashes : KernelHashes} {p q : KernelPublicInputs} {low high : List SideEffect}
  {lowNullifiers highNullifiers : List SideEffectLinkedToNoteHash}

theorem forall_mem_append_append {T : Type} {P : T → Prop} {a b x y : List T}
    (h : ∀ e ∈ a ++ b, P e) (hx : ∀ e ∈ x, P e) (hy : ∀ e ∈ y, P e) :
    ∀ e ∈ (a ++ x) ++ (b ++ y), P e := by
  intro e he
  simp only [mem_append] at he h
  rcases he with (he | he) | he | he
  · exact h e (.inl he)
  · exact hx e he
  · exact h e (.inr he)
  · exact hy e he

theorem PublicHolds.append {nonRevertible revertible : Effects} {messages : List Field}
    (hp : PublicHolds p low high lowNullifiers highNullifiers) (hq : q.Tidy)
    (h : AppendsEffects p q nonRevertible revertible messages) (hnr : nonRevertible.NonEmpty)
    (hr : revertible.NonEmpty) :
    PublicHolds q (low ++ nonRevertible.noteHashes) (high ++ revertible.noteHashes)
      (lowNullifiers ++ nonRevertible.nullifiers) (highNullifiers ++ revertible.nullifiers) := by
  obtain ⟨-, hlow, hhigh, hlow', hhigh', hne, hne'⟩ := hp
  exact ⟨hq, h.nonRevertible.newNoteHashes.holds hlow fun e he =>
      hne e (mem_append_left _ he),
    h.revertible.newNoteHashes.holds hhigh fun e he =>
      hne e (mem_append_right _ he),
    h.nonRevertible.newNullifiers.holds hlow' fun e he =>
      hne' e (mem_append_left _ he),
    h.revertible.newNullifiers.holds hhigh' fun e he =>
      hne' e (mem_append_right _ he),
    forall_mem_append_append hne hnr.noteHashes hr.noteHashes,
    forall_mem_append_append hne' hnr.nullifiers hr.nullifiers⟩

variable {publicCall : PublicCallData}

theorem siloedNoteHashes_eq_nil_iff :
    siloedNoteHashes hashes publicCall = [] ↔ EmitsNone publicCall := by
  rw [siloedNoteHashes, map_eq_nil_iff, filter_eq_nil_iff, EmitsNone]
  simp

def Siloed (hashes : KernelHashes) (noteHash : SideEffect) : Prop :=
  ∃ address value, noteHash.value = hashes.siloNoteHash address value

theorem siloed_of_mem :
    ∀ noteHash ∈ siloedNoteHashes hashes publicCall, Siloed hashes noteHash := by
  intro noteHash hmem
  obtain ⟨item, -, rfl⟩ := mem_map.1 hmem
  exact ⟨_, _, rfl⟩

/-- **What an iteration appends**: siloed note hashes, to the non-revertible part none exactly when
it is of app logic or its call emits none. -/
theorem iteration_holds {phase : Phase} (hideal : hashes.Ideal)
    (hp : PublicHolds p low high lowNullifiers highNullifiers)
    (h : iteration hashes p publicCall phase = .ok q) :
    ∃ x y u v, PublicHolds q (low ++ x) (high ++ y) (lowNullifiers ++ u) (highNullifiers ++ v) ∧
      (x = [] ↔ phase = .appLogic ∨ EmitsNone publicCall) ∧ (phase = .appLogic → u = []) ∧
      ∀ noteHash ∈ x ++ y, Siloed hashes noteHash := by
  have hq := iteration_tidy hideal.toNeverEmpty hp.tidy h
  have heffects := fun address => @siloedEffects_nonEmpty hashes publicCall hideal.toNeverEmpty address
  have hsiloed : ∀ noteHash ∈ siloedNoteHashes hashes publicCall ++ [], Siloed hashes noteHash := by
    rw [append_nil]
    exact siloed_of_mem
  cases phase with
  | setup =>
    simp only [iteration, publicKernelSetup, bind_eq_ok] at h
    obtain ⟨_, -, _, -, hrun⟩ := h
    refine ⟨_, _, _, _, hp.append hq (runNonRevertible_appends hp.tidy hrun) (heffects _)
      Effects.nonEmpty_none, ?_, by simp, hsiloed⟩
    rw [or_iff_right (by simp)]
    exact siloedNoteHashes_eq_nil_iff
  | appLogic =>
    exact ⟨_, _, _, _, hp.append hq (appLogic_appends hp.tidy h) Effects.nonEmpty_none
      (heffects _), ⟨fun _ => .inl rfl, fun _ => rfl⟩, fun _ => rfl, siloed_of_mem⟩
  | teardown =>
    simp only [iteration, publicKernelTeardown, bind_eq_ok] at h
    obtain ⟨_, -, _, -, hrun⟩ := h
    refine ⟨_, _, _, _, hp.append hq (runNonRevertible_appends hp.tidy hrun) (heffects _)
      Effects.nonEmpty_none, ?_, by simp, hsiloed⟩
    rw [or_iff_right (by simp)]
    exact siloedNoteHashes_eq_nil_iff

theorem runChain_holds (hideal : hashes.Ideal) (steps : List (Phase × PublicCallData)) :
    ∀ {p q : KernelPublicInputs} {low high : List SideEffect}
      {lowNullifiers highNullifiers : List SideEffectLinkedToNoteHash},
      PublicHolds p low high lowNullifiers highNullifiers → runChain hashes p steps = .ok q →
      ∃ x y u v, PublicHolds q (low ++ x) (high ++ y) (lowNullifiers ++ u) (highNullifiers ++ v) ∧
        (x = [] ↔ ∀ step ∈ steps, step.1 = .appLogic ∨ EmitsNone step.2) ∧
        ((∀ step ∈ steps, step.1 = .appLogic) → u = []) ∧
        ∀ noteHash ∈ x ++ y, Siloed hashes noteHash := by
  induction steps with
  | nil =>
    intro p q low high lowNullifiers highNullifiers hp h
    simp only [runChain, foldlM_nil, pure_eq_ok] at h
    subst h
    refine ⟨[], [], [], [], ?_, by simp, fun _ => rfl, by simp⟩
    simpa only [append_nil] using hp
  | cons step steps ih =>
    intro p q low high lowNullifiers highNullifiers hp h
    rw [runChain, foldlM_cons, bind_eq_ok] at h
    obtain ⟨mid, hstep, hrest⟩ := h
    obtain ⟨x, y, u, v, hmid, hx, hu, hsiloed⟩ := iteration_holds hideal hp hstep
    obtain ⟨x', y', u', v', hq, hx', hu', hsiloed'⟩ := ih hmid hrest
    rw [append_assoc, append_assoc, append_assoc, append_assoc] at hq
    refine ⟨_, _, _, _, hq, ?_, fun hall => ?_, fun noteHash hmem => ?_⟩
    · rw [append_eq_nil_iff, hx, hx', forall_mem_cons]
    · obtain ⟨hfirst, hlater⟩ := forall_mem_cons.1 hall
      rw [hu hfirst, hu' hlater, append_nil]
    · simp only [mem_append] at hmem hsiloed hsiloed'
      rcases hmem with (hmem | hmem) | hmem | hmem
      · exact hsiloed noteHash (.inl hmem)
      · exact hsiloed' noteHash (.inl hmem)
      · exact hsiloed noteHash (.inr hmem)
      · exact hsiloed' noteHash (.inr hmem)

theorem runChain_appLogic (steps : List (Phase × PublicCallData)) :
    ∀ {p q : KernelPublicInputs} {revertible : List CallRequest},
      Consistent p [] revertible → runChain hashes p steps = .ok q →
      ∀ step ∈ steps, step.1 = .appLogic := by
  induction steps with
  | nil => exact fun _ _ step hmem => absurd hmem not_mem_nil
  | cons step steps ih =>
    intro p q revertible hp h
    obtain ⟨phase, publicCall⟩ := step
    rw [runChain, foldlM_cons, bind_eq_ok] at h
    obtain ⟨mid, hstep, hrest⟩ := h
    cases phase with
    | setup =>
      obtain ⟨hlt, -⟩ := setup_stacks hp hstep
      cases hlt
    | appLogic =>
      obtain ⟨-, rest, request, requests, -, -, hmid⟩ := appLogic_stacks hp hstep
      exact forall_mem_cons.2 ⟨rfl, ih hmid hrest⟩
    | teardown =>
      obtain ⟨hlength, -⟩ := teardown_stacks hp hstep
      cases hlength

end PublicCalls

/-! ### Recombining -/

theorem nonEmpty_of_holds [DecidableEq T] [Empty T] {n : ℕ} {array : Vector T n} (h : Holds array l)
    (hne : ∀ e ∈ l, e ≠ Empty.empty) : nonEmpty array = l :=
  h.filter_nonEmpty hne

theorem arrayConcat_of_holds [DecidableEq T] [Empty T] {a b : ℕ} {low : Vector T a}
    {high : Vector T b} {m : List T} (hlow : Holds low l) (hhigh : Holds high m)
    (hne : ∀ e ∈ l ++ m, e ≠ Empty.empty) :
    ∃ result, arrayConcat (a + b) low high = .ok result ∧ Holds result (l ++ m) := by
  obtain ⟨result, hresult, hlist⟩ := arrayConcat_total (a + b) low high
    (Nat.add_le_add (length_nonEmpty_le _) (length_nonEmpty_le _))
  rw [nonEmpty_of_holds hlow fun e he => hne e (mem_append_left _ he),
    nonEmpty_of_holds hhigh fun e he => hne e (mem_append_right _ he)] at hlist
  exact ⟨result, hresult, hlist⟩

theorem recombine_holds {q : KernelPublicInputs} {low high : List SideEffect}
    {lowNullifiers highNullifiers : List SideEffectLinkedToNoteHash}
    (hq : PublicHolds q low high lowNullifiers highNullifiers) :
    ∃ combined, recombine q.endNonRevertible q.end = .ok combined ∧
      Holds combined.newNoteHashes (low ++ high) ∧
      Holds combined.newNullifiers (lowNullifiers ++ highNullifiers) := by
  obtain ⟨noteHashes, hnoteHashes, hholds⟩ :=
    arrayConcat_of_holds hq.nonRevertible hq.revertible hq.noteHashes_ne_empty
  obtain ⟨nullifiers, hnullifiers, hholds'⟩ := arrayConcat_of_holds hq.nonRevertibleNullifiers
    hq.revertibleNullifiers hq.nullifiers_ne_empty
  obtain ⟨calls, hcalls, -⟩ := arrayConcat_total 8 q.endNonRevertible.publicCallStack
    q.end.publicCallStack (Nat.add_le_add (length_nonEmpty_le _) (length_nonEmpty_le _))
  obtain ⟨updates, hupdates, -⟩ := arrayConcat_total 32 q.endNonRevertible.publicDataUpdateRequests
    q.end.publicDataUpdateRequests
    (Nat.add_le_add (length_nonEmpty_le _) (length_nonEmpty_le _))
  obtain ⟨reads, hreads, -⟩ := arrayConcat_total 32 q.endNonRevertible.publicDataReads
    q.end.publicDataReads (Nat.add_le_add (length_nonEmpty_le _) (length_nonEmpty_le _))
  exact ⟨_, bind_eq_ok.2 ⟨noteHashes, hnoteHashes, bind_eq_ok.2 ⟨nullifiers, hnullifiers,
    bind_eq_ok.2 ⟨calls, hcalls, bind_eq_ok.2 ⟨updates, hupdates, bind_eq_ok.2 ⟨reads, hreads,
    rfl⟩⟩⟩⟩⟩, hholds, hholds'⟩

/-! ### Whole transactions -/

/-- An accepted transaction: a private chain, then public iterations. -/
structure Accepted (privateHashes : PrivateKernelHashes) (hashes : KernelHashes)
    (txRequest : TxRequest) (first : PrivateCallData) (later : List PrivateCallData)
    (hints : TailHints) (p : InnerPublicInputs) (out : KernelPublicInputs)
    (steps : List (Phase × PublicCallData)) (q : KernelPublicInputs) : Prop where
  privateCalls : (init privateHashes txRequest first >>= fun p =>
    later.foldlM (PrivateKernel.inner privateHashes) p) = .ok p
  tail : PrivateKernel.tail privateHashes hints p = .ok out
  publicCalls : runChain hashes out steps = .ok q

/-- **The recombined array**: the non-revertible note hashes of the private calls and those of setup
and teardown, then the revertible note hashes of the private calls and those of app logic; the first
nullifier is the one that the nonces were computed with. -/
theorem recombine_parts {hashes : KernelHashes} {txRequest : TxRequest} {first : PrivateCallData}
    {later : List PrivateCallData} {hints : TailHints} {p : InnerPublicInputs}
    {out q : KernelPublicInputs} {steps : List (Phase × PublicCallData)}
    (hideal : NoteHashesIdeal privateHashes) (hideal' : hashes.Ideal)
    (h : Accepted privateHashes hashes txRequest first later hints p out steps q)
    (hreorders : Reorders hints p) : ∃ surviving low high x y combined,
      Survive ((first :: later).flatMap (createdNoteHashes privateHashes))
        (nullified ((first :: later).flatMap (createdNullifiers privateHashes))) surviving ∧
      recombine q.endNonRevertible q.end = .ok combined ∧
      low ++ high = makeUnique privateHashes
        (getElem combined.newNullifiers 0 first_lt_sixtyFour).value surviving ∧
      Holds combined.newNoteHashes ((low ++ x) ++ (high ++ y)) ∧
      (∀ noteHash ∈ x ++ y, Siloed hashes noteHash) ∧
      (x = [] ∨ high = [] ↔ ∀ step ∈ steps, StepOk out step) := by
  obtain ⟨hprivate, htail, hpublic⟩ := h
  obtain ⟨p₀, hinit, hinner⟩ := bind_eq_ok.1 hprivate
  obtain ⟨nullifiers₀, hp₀⟩ := init_output hideal hinit
  obtain ⟨nullifiers, hp⟩ := inner_run_output hideal later hp₀ hinner
  obtain ⟨surviving, low, high, lowNullifiers, highNullifiers, hsurvive, hout, hunique, hpos,
    hzero⟩ := tail_places hideal hp hreorders htail
  obtain ⟨x, y, u, v, hq, hx, hu, hsiloed⟩ := runChain_holds hideal' steps hout hpublic
  obtain ⟨combined, hcombined, hnoteHashes, hnullifiers⟩ := recombine_holds hq
  -- the first nullifier is that of the transaction
  have hhead : ((lowNullifiers ++ u) ++ (highNullifiers ++ v)).head? =
      some { value := privateHashes.txRequest txRequest, noteHash := 0, counter := 0 } := by
    rcases Nat.eq_zero_or_pos p.minRevertibleSideEffectCounter with hmin | hmin
    · obtain ⟨hnil, hhigh⟩ := hzero hmin
      obtain ⟨-, hok, hstack, hstack'⟩ := init_stacks hinit
      rw [← map_fst_pushes] at hstack
      obtain ⟨stack', t', -, hstack, hstack', -⟩ :=
        run_of_inner later hinner hstack (pushes_valid hok) hstack'
      obtain ⟨-, hconsistent⟩ := tail_stacks htail hstack hstack'
      rw [hmin, filter_eq_nil_iff.2 fun r _ => by simp] at hconsistent
      rw [hu (runChain_appLogic steps hconsistent hpublic), hnil, append_nil,
        nil_append, List.head?_append, hhigh]
      rfl
    · rw [append_assoc, List.head?_append, hpos hmin]
      rfl
  have hfirst : combined.newNullifiers[0].value = privateHashes.txRequest txRequest := by
    obtain ⟨rest, hrest⟩ := List.head?_eq_some_iff.1 hhead
    have hget : combined.newNullifiers[0]? =
        some { value := privateHashes.txRequest txRequest, noteHash := 0, counter := 0 } := by
      rw [Holds, hrest] at hnullifiers
      rw [← Vector.getElem?_toList, hnullifiers]
      rfl
    rw [Vector.getElem?_eq_getElem (by decide), some.injEq] at hget
    rw [hget]
  refine ⟨surviving, low, high, x, y, combined, hsurvive, hcombined, by rw [hfirst, hunique],
    hnoteHashes, hsiloed, ?_⟩
  have hrevertible : nonEmpty out.end.newNoteHashes = high :=
    nonEmpty_of_holds hout.revertible fun e he =>
      hout.noteHashes_ne_empty e (mem_append_right _ he)
  simp only [StepOk, hrevertible, hx, ← or_assoc]
  constructor
  · rintro (hquiet | hnone) step hstep
    · exact .inl (hquiet step hstep)
    · exact .inr hnone
  · intro hall
    by_cases hnone : high = []
    · exact .inr hnone
    · exact .inl fun step hstep => (hall step hstep).resolve_right hnone

theorem toList_of_parts {firstNullifier : Field} {noteHashes : Vector SideEffect 64}
    {low high x y : List SideEffect}
    (hunique : low ++ high = makeUnique privateHashes firstNullifier surviving)
    (hholds : Holds noteHashes ((low ++ x) ++ (high ++ y))) (h : x = [] ∨ high = []) :
    ∃ others, noteHashes.toList = makeUnique privateHashes firstNullifier surviving ++ others := by
  rw [Holds] at hholds
  rcases h with rfl | rfl
  · refine ⟨y ++ List.replicate (64 - ((low ++ []) ++ (high ++ y)).length) Empty.empty, ?_⟩
    rw [hholds, ← hunique]
    simp only [append_nil, append_assoc]
  · refine ⟨x ++ y ++ List.replicate (64 - ((low ++ x) ++ ([] ++ y)).length) Empty.empty, ?_⟩
    rw [hholds, ← hunique]
    simp only [append_nil, nil_append, append_assoc]

end NoteNonces
