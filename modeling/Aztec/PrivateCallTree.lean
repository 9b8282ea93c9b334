/-
**The private calls of a transaction form a tree, and each is verified once.**

The private kernel sees the calls of a transaction one at a time.  What connects them are the call
requests on its stack: a call pushes a request for each of the hashes in its
`private_call_stack_hashes`, with caller data that are checked when the request is pushed and used
when it is popped.  Over an accepted chain the stack discipline makes the verified calls the nodes
of the call tree of the transaction request.
-/

import Aztec.PrivateKernel
import Aztec.StackTraversal

namespace PrivateKernel

open Noir Failing Kernel StackTraversal

/-! ### The requests of a call -/

variable {n : ℕ} {array : Vector CallRequest n} {u : Unit} {calls : List PrivateCallData}

theorem requests_of_checks {hashes : Vector Field n} {valid : CallRequest → Bool}
    (hlen : arrayLength hashes = (arrayToBoundedVec array).len)
    (hloop : ∀ i (hi : i < n), hashes[i] ≠ 0 → array[i].hash = hashes[i] ∧ valid array[i] = true) :
    RequestStack array (array.toList.take (arrayLength hashes)) ∧
      (array.toList.take (arrayLength hashes)).map CallRequest.hash = hashes.toList.filter (· ≠ 0) ∧
      ∀ r ∈ array.toList.take (arrayLength hashes), valid r = true := by
  have hle := arrayLength_le hashes
  have hne : ∀ i (hi : i < n), i < arrayLength hashes → hashes[i] ≠ 0 :=
    fun i hi hlt => ne_empty_of_lt_arrayLength hi hlt
  have hlist := toList_eq_of_countP hle (fun i hi hlt => RequestStack.ne_empty_of_hash
      (by rw [(hloop i hi (hne i hi hlt)).1]; exact hne i hi hlt)) hlen.symm
  have hlength : (array.toList.take (arrayLength hashes)).length = arrayLength hashes := by
    simp [hle]
  -- a hash after the first empty one would need a request, and there are no more of them
  have hlast : EmptyLast hashes := by
    intro i j hij hi
    by_contra hj
    have hge : arrayLength hashes ≤ i := by
      by_contra hlt
      exact hne i i.2 (by omega) hi
    have hget : array.toList[(j : ℕ)]? = some Empty.empty := by
      rw [hlist, List.getElem?_append_right (by rw [hlength]; omega), List.getElem?_replicate,
        if_pos (by rw [hlength]; omega)]
    have hrequest : array[(j : ℕ)] = Empty.empty := by
      simpa using hget
    have hhash := (hloop j j.2 hj).1
    rw [hrequest] at hhash
    exact hj hhash.symm
  obtain ⟨hsplit, hlength', hnonzero⟩ := toList_eq_of_emptyLast hlast
  refine ⟨⟨by rw [hlength]; exact hlist, ?_⟩, ?_, ?_⟩
  · intro r hr
    obtain ⟨i, hi, rfl⟩ := List.getElem_of_mem hr
    rw [hlength] at hi
    have hin : i < n := hi.trans_le hle
    have h := (hloop i hin (hne i hin hi)).1
    simpa [h] using hne i hin hi
  · have hfilter : hashes.toList.filter (· ≠ 0) = hashes.toList.take (arrayLength hashes) := by
      conv_lhs => rw [hsplit]
      rw [List.filter_append, List.filter_eq_self.2, List.filter_eq_nil_iff.2, List.append_nil]
      · intro h hmem
        simp [show h = 0 from (List.mem_replicate.1 hmem).2]
      · intro h hmem
        exact decide_eq_true (show h ≠ 0 from hnonzero h hmem)
    rw [hfilter]
    refine List.ext_getElem (by simp) fun i hi hi' => ?_
    rw [List.length_map, hlength] at hi
    have hin : i < n := hi.trans_le hle
    simpa using (hloop i hin (hne i hin hi)).1
  · intro r hr
    obtain ⟨i, hi, rfl⟩ := List.getElem_of_mem hr
    rw [hlength] at hi
    have hin : i < n := hi.trans_le hle
    simpa using (hloop i hin (hne i hin hi)).2

def privateRequests (c : PrivateCallData) : List CallRequest :=
  c.privateCallStack.toList.take
    (arrayLength c.callStackItem.publicInputs.privateCallStackHashes)

def publicRequests (c : PrivateCallData) : List CallRequest :=
  c.publicCallStack.toList.take (arrayLength c.callStackItem.publicInputs.publicCallStackHashes)

def privateHashes (item : PrivateCallStackItem) : List Field :=
  item.publicInputs.privateCallStackHashes.toList.filter (· ≠ 0)

def publicHashes (item : PrivateCallStackItem) : List Field :=
  item.publicInputs.publicCallStackHashes.toList.filter (· ≠ 0)

/-- What the checks on the requests of a call establish. -/
structure RequestsOk (c : PrivateCallData) : Prop where
  privateHashes_eq : (privateRequests c).map CallRequest.hash = privateHashes c.callStackItem
  publicHashes_eq : (publicRequests c).map CallRequest.hash = publicHashes c.callStackItem
  validCaller : ∀ r ∈ privateRequests c, isValidCaller r c = true

variable {c : PrivateCallData}

theorem validateCallRequests_spec {hs : Vector Field n} (h : validateCallRequests (arrayToBoundedVec array) hs c = .ok u) :
    RequestStack array (array.toList.take (arrayLength hs)) ∧
      (array.toList.take (arrayLength hs)).map CallRequest.hash = hs.toList.filter (· ≠ 0) ∧
      ∀ r ∈ array.toList.take (arrayLength hs), isValidCaller r c = true := by
  simp only [validateCallRequests, bind_eq_ok, assert_eq_ok, decide_eq_true_eq] at h
  obtain ⟨-, hlen, hloop⟩ := h
  refine @requests_of_checks n array hs (fun r => isValidCaller r c) hlen fun i hi hne => ?_
  have hturn := forM_eq_ok.1 hloop i (List.mem_range.2 hi)
  simpa only [bind_eq_ok, get_eq_ok, Vector.getElem?_eq_getElem hi, Option.some.injEq,
    exists_eq_left', if_pos hne, assert_eq_ok, decide_eq_true_eq, exists_and_left,
    arrayToBoundedVec, exists_const] using hturn

theorem validateCallAgainstRequest_eq_ok {hashes : PrivateKernelHashes} {request : CallRequest} : validateCallAgainstRequest hashes c request = .ok u ↔
      request.hash = hashes.callStackItem c.callStackItem ∧
      (c.callStackItem.functionData.isInternal = true →
        c.callStackItem.publicInputs.callContext.msgSender =
          c.callStackItem.publicInputs.callContext.storageContractAddress) ∧
      if c.callStackItem.publicInputs.callContext.isDelegateCall = true then
        request.callerContext.isEmpty = false ∧
          c.callStackItem.publicInputs.callContext.msgSender = request.callerContext.msgSender ∧
          c.callStackItem.publicInputs.callContext.storageContractAddress =
            request.callerContext.storageContractAddress ∧ c.callStackItem.contractAddress ≠
            c.callStackItem.publicInputs.callContext.storageContractAddress else
        c.callStackItem.publicInputs.callContext.msgSender = request.callerContractAddress ∧
          c.callStackItem.publicInputs.callContext.storageContractAddress =
            c.callStackItem.contractAddress := by
  unfold validateCallAgainstRequest
  cases hinternal : c.callStackItem.functionData.isInternal <;>
    cases hdelegate : c.callStackItem.publicInputs.callContext.isDelegateCall <;>
    simp [bind_eq_ok, hinternal, hdelegate]

/-! ### What an accepted iteration does to the call stacks -/

section Stacks

variable {hashes : PrivateKernelHashes} {c : PrivateCallData} {out out' : Builder}
  {s t : List CallRequest}

theorem updateEndValues_stacks (h : updateEndValues hashes c out = .ok out')
    (hs : Calls out.end.privateCallStack s) (ht : Calls out.end.publicCallStack t) :
    RequestsOk c ∧ Calls out'.end.privateCallStack (s ++ privateRequests c) ∧
      Calls out'.end.publicCallStack (t ++ publicRequests c) ∧
      out'.minRevertibleSideEffectCounter = out.minRevertibleSideEffectCounter := by
  simp only [updateEndValues, bind_eq_ok, pure_eq_ok] at h
  obtain ⟨_, -, reads, -, keys, -, nullifiers, -, noteHashes, -, _, hprivate, privateStack,
    hpushPrivate, _, hpublic, publicStack, hpushPublic, messages, -, encrypted, -, unencrypted,
    -, rfl⟩ := h
  obtain ⟨hstack, hhashes, hvalid⟩ := validateCallRequests_spec hprivate
  obtain ⟨hstack', hhashes', -⟩ := validateCallRequests_spec hpublic
  exact ⟨⟨hhashes, hhashes', hvalid⟩, hs.extend hstack.calls hpushPrivate,
    ht.extend hstack'.calls hpushPublic, rfl⟩

theorem contractLogic_stacks {data : ContractDeploymentData} {functionData : FunctionData}
    (h : contractLogic hashes c data functionData out = .ok out') :
    out'.end.privateCallStack = out.end.privateCallStack ∧
      out'.end.publicCallStack = out.end.publicCallStack ∧
      out'.minRevertibleSideEffectCounter = out.minRevertibleSideEffectCounter := by
  unfold contractLogic at h
  split at h
  · simp only [bind_eq_ok, pure_eq_ok] at h
    obtain ⟨_, -, contracts, -, _, -, nullifiers, -, rfl⟩ := h
    exact ⟨rfl, rfl, rfl⟩
  · simp only [bind_eq_ok, pure_eq_ok] at h
    obtain ⟨_, -, _, -, rfl⟩ := h
    exact ⟨rfl, rfl, rfl⟩

structure EntryPoint (hashes : PrivateKernelHashes) (txRequest : TxRequest)
    (item : PrivateCallStackItem) : Prop where
  origin_eq : txRequest.origin = item.contractAddress
  functionData_eq : hashes.functionData txRequest.functionData =
    hashes.functionData item.functionData
  argsHash_eq : txRequest.argsHash = item.publicInputs.argsHash
  not_delegate : item.publicInputs.callContext.isDelegateCall = false
  not_static : item.publicInputs.callContext.isStaticCall = false
  storage_eq : item.publicInputs.callContext.storageContractAddress = item.contractAddress

variable {p : InnerPublicInputs} {q : KernelPublicInputs}

theorem init_stacks {txRequest : TxRequest} (h : init hashes txRequest c = .ok p) :
    EntryPoint hashes txRequest c.callStackItem ∧ RequestsOk c ∧
      RequestStack p.end.privateCallStack (privateRequests c) ∧
      RequestStack p.end.publicCallStack (publicRequests c) := by
  simp only [init, validateInputsInit, validateAgainstTxRequest, bind_eq_ok, assert_eq_ok,
    decide_eq_true_eq, Bool.not_eq_true', pure_eq_ok] at h
  obtain ⟨_, ⟨_, -, _, -, _, hdelegate, _, hstatic, hstorage⟩, _, -,
    _, ⟨_, horigin, _, hfunction, hargs⟩, _, -, nullifiers, -, out₁, hupdate, out₂, hlogic,
    rfl⟩ := h
  have hempty : ∀ {n : ℕ}, Calls (zeroedVec : BoundedVec CallRequest n) [] :=
    ⟨Stack.new _, rfl, fun r hr => absurd hr List.not_mem_nil⟩
  obtain ⟨hok, hprivate, hpublic, -⟩ := updateEndValues_stacks hupdate hempty hempty
  obtain ⟨hprivate', hpublic', -⟩ := contractLogic_stacks hlogic
  rw [← hprivate'] at hprivate
  rw [← hpublic'] at hpublic
  exact ⟨⟨horigin, hfunction, hargs, hdelegate, hstatic, hstorage⟩, hok,
    hprivate.requestStack, hpublic.requestStack⟩

/-- **An accepted inner iteration** takes the last private request, whose call it verifies, and
appends the requests of that call. -/
theorem inner_stacks {q : InnerPublicInputs} (h : inner hashes p c = .ok q)
    (hs : RequestStack p.end.privateCallStack s) (ht : RequestStack p.end.publicCallStack t) :
    ∃ rest request, s = rest ++ [request] ∧
      validateCallAgainstRequest hashes c request = .ok () ∧ RequestsOk c ∧
      RequestStack q.end.privateCallStack (rest ++ privateRequests c) ∧
      RequestStack q.end.publicCallStack (t ++ publicRequests c) := by
  simp only [inner, bind_eq_ok, pure_eq_ok] at h
  obtain ⟨_, -, _, -, _, -, _, -, ⟨request, stack⟩, hpop, _, hrequest, _, -, out₁, hupdate, _, -,
    out₂, hlogic, rfl⟩ := h
  obtain ⟨rest, rfl, hrest⟩ := hs.calls.pop hpop
  obtain ⟨hok, hprivate, hpublic, -⟩ := updateEndValues_stacks hupdate hrest ht.calls
  obtain ⟨hprivate', hpublic', -⟩ := contractLogic_stacks hlogic
  rw [← hprivate'] at hprivate
  rw [← hpublic'] at hpublic
  exact ⟨rest, request, rfl, hrequest, hok, hprivate.requestStack, hpublic.requestStack⟩

theorem toTail_calls {b : CombinedBuilder} {minCounter : ℕ} {constants : CombinedConstantData}
    (h : Kernel.toTail b minCounter constants = .ok q)
    (ht : RequestStack b.publicCallStack.storage t) :
    Consistent q (t.filter fun r => r.startSideEffectCounter < minCounter)
      (t.filter fun r => !decide (r.startSideEffectCounter < minCounter)) := by
  simp only [Kernel.toTail, CombinedBuilder.split, bind_eq_ok, pure_eq_ok] at h
  obtain ⟨_, ⟨noteHashes, -, nullifiers, -, calls, hcalls, rfl⟩, rfl⟩ := h
  obtain ⟨hl, hr, hel, her⟩ := splitBy_stack hcalls
  have hfilter : ∀ below : CallRequest → Bool,
      b.publicCallStack.storage.toList.filter (fun r => !isEmpty r && below r) =
        t.filter below := by
    intro below
    have hpadding : (List.replicate (8 - t.length) (Empty.empty : CallRequest)).filter
        (fun r => !isEmpty r && below r) = [] := by
      refine List.filter_eq_nil_iff.2 fun r hr => ?_
      simp [(List.mem_replicate.1 hr).2, isEmpty]
    rw [ht.toList_eq, List.filter_append, hpadding, List.append_nil]
    refine List.filter_congr fun r hr => ?_
    have hne : isEmpty r = false := by
      simpa [isEmpty] using RequestStack.ne_empty_of_hash (ht.hash_ne_zero r hr)
    rw [hne, Bool.not_false, Bool.true_and]
  rw [hfilter] at hl hr
  exact KernelBuilder.toInner_consistent
    (.ofStack hl hel fun r hr => ht.hash_ne_zero r (List.mem_of_mem_filter hr))
    (.ofStack hr her fun r hr => ht.hash_ne_zero r (List.mem_of_mem_filter hr))

theorem tail_stacks {hints : TailHints} (h : tail hashes hints p = .ok q)
    (hs : RequestStack p.end.privateCallStack s) (ht : RequestStack p.end.publicCallStack t) :
    s = [] ∧ Consistent q
      (t.filter fun r => r.startSideEffectCounter < p.minRevertibleSideEffectCounter)
      (t.filter fun r =>
        !decide (r.startSideEffectCounter < p.minRevertibleSideEffectCounter)) := by
  simp only [tail, bind_eq_ok, assert_eq_ok, decide_eq_true_eq] at h
  obtain ⟨_, hempty, _, -, _, -, _, -, _, -, _, -, squashed, -, noteHashes, -, htail⟩ := h
  constructor
  · by_contra hne
    have hpos : 0 < s.length := List.length_pos_iff.2 hne
    have hlt : 0 < 8 := by decide
    have hfirst := hs.isEmpty_getElem hlt
    rw [decide_eq_true hpos] at hfirst
    have hzero := eq_empty_arrayLength hlt hempty.symm
    rw [hzero] at hfirst
    simp at hfirst
  · exact toTail_calls htail ht

end Stacks

/-! ### Chains -/

/-- A chain of private kernel circuits: init, an inner iteration for each further call, tail. -/
def chain (hashes : PrivateKernelHashes) (txRequest : TxRequest) (first : PrivateCallData)
    (later : List PrivateCallData) (hints : TailHints) : Circuit KernelPublicInputs := do
  let p ← init hashes txRequest first
  let p ← later.foldlM (inner hashes) p
  tail hashes hints p

/-- The sender and the storage address that a caller gives to a call: its own address and the
address of the called contract, or in a delegate call its own sender and storage address. -/
def ContextFrom (caller call : PrivateCallStackItem) : Prop :=
  let context := call.publicInputs.callContext
  if context.isDelegateCall then
    context.msgSender = caller.publicInputs.callContext.msgSender ∧
      context.storageContractAddress = caller.publicInputs.callContext.storageContractAddress
  else
    context.msgSender = caller.contractAddress ∧
      context.storageContractAddress = call.contractAddress

/-- The call tree: at every node the children are the calls with the node's hashes, from the last
to the first, and their contexts come from the node. -/
def CallTree (hashes : PrivateKernelHashes) (tree : RoseTree PrivateCallData) : Prop :=
  tree.Each fun call calls =>
    calls.map (fun child => hashes.callStackItem child.callStackItem) =
        (privateHashes call.callStackItem).reverse ∧
      ∀ child ∈ calls, ContextFrom call.callStackItem child.callStackItem

/-- The hashes alone: at every node the children are the items with the node's hashes. -/
def ItemTree (hashes : PrivateKernelHashes) (tree : RoseTree PrivateCallStackItem) : Prop :=
  tree.Each fun item items => items.map hashes.callStackItem = (privateHashes item).reverse

abbrev Pushed := CallRequest × PrivateCallData

def pushes (c : PrivateCallData) : List Pushed := (privateRequests c).map fun r => (r, c)

/-- A verified call answers a request that its caller was entitled to make. -/
def Answers (hashes : PrivateKernelHashes) (pushed : Pushed) (c : PrivateCallData) : Prop :=
  validateCallAgainstRequest hashes c pushed.1 = .ok () ∧
    isValidCaller pushed.1 pushed.2 = true ∧ RequestsOk c

theorem pushes_valid (hc : RequestsOk c) :
    ∀ e ∈ pushes c, isValidCaller e.1 e.2 = true := by
  intro e he
  obtain ⟨r, hr, rfl⟩ := List.mem_map.1 he
  exact hc.validCaller r hr

theorem map_fst_pushes (c : PrivateCallData) : (pushes c).map Prod.fst = privateRequests c := by
  rw [pushes, List.map_map]
  exact List.map_id _

section

variable {hashes : PrivateKernelHashes}

/-- **The inner iterations are a traversal** of what is on the stack, and append the public requests
of the calls they verify. -/
theorem run_of_inner (later : List PrivateCallData) :
    ∀ {p q : InnerPublicInputs} {stack : List Pushed} {t : List CallRequest},
      later.foldlM (inner hashes) p = .ok q →
      RequestStack p.end.privateCallStack (stack.map Prod.fst) →
      (∀ e ∈ stack, isValidCaller e.1 e.2 = true) → RequestStack p.end.publicCallStack t →
      ∃ stack' t', Run pushes (Answers hashes) stack later stack' ∧
        RequestStack q.end.privateCallStack (stack'.map Prod.fst) ∧
        RequestStack q.end.publicCallStack (t ++ t') ∧
        t'.map CallRequest.hash = later.flatMap fun c => publicHashes c.callStackItem := by
  induction later with
  | nil =>
    intro p q stack t h hs _ ht
    simp only [List.foldlM_nil, pure_eq_ok] at h
    subst h
    exact ⟨stack, [], .nil stack, hs, by rwa [List.append_nil], rfl⟩
  | cons c later ih =>
    intro p q stack t h hs hvalid ht
    rw [List.foldlM_cons, bind_eq_ok] at h
    obtain ⟨mid, hstep, hrest⟩ := h
    obtain ⟨rest, request, hsplit, hrequest, hok, hmid, hmid'⟩ := inner_stacks hstep hs ht
    -- the request that is popped belongs to the last entry of the stack
    obtain ⟨before, last, rfl, rfl, hlast⟩ := List.map_eq_append_iff.1 hsplit
    obtain ⟨e, last', rfl, rfl, hnil⟩ := List.map_eq_cons_iff.1 hlast
    rw [List.map_eq_nil_iff] at hnil
    subst hnil
    have hentry := hvalid e (List.mem_append_right _ List.mem_cons_self)
    rw [← map_fst_pushes, ← List.map_append] at hmid
    have hvalid' : ∀ e ∈ before ++ pushes c, isValidCaller e.1 e.2 = true := by
      intro e he
      rcases List.mem_append.1 he with he | he
      · exact hvalid e (List.mem_append_left _ he)
      · exact pushes_valid hok e he
    obtain ⟨stack', t', hrun, hprivate, hpublic, hhashes⟩ := ih hrest hmid hvalid' hmid'
    refine ⟨stack', publicRequests c ++ t', .cons ⟨hrequest, hentry, hok⟩ hrun, hprivate, ?_, ?_⟩
    · rwa [← List.append_assoc]
    · rw [List.map_append, hhashes, hok.publicHashes_eq, List.flatMap_cons]

theorem Answers.context {e : Pushed} {c : PrivateCallData}
    (h : Answers hashes e c) : e.1.hash = hashes.callStackItem c.callStackItem ∧
      ContextFrom e.2.callStackItem c.callStackItem := by
  obtain ⟨hrequest, hcaller, -⟩ := h
  simp only [isValidCaller, Bool.and_eq_true, decide_eq_true_eq, Bool.or_eq_true] at hcaller
  obtain ⟨hhash, -, hcontext⟩ := validateCallAgainstRequest_eq_ok.1 hrequest
  refine ⟨hhash, ?_⟩
  cases hdelegate : c.callStackItem.publicInputs.callContext.isDelegateCall with
  | true =>
    rw [hdelegate, if_pos rfl] at hcontext
    obtain ⟨hne, hsender, hstorage, -⟩ := hcontext
    rcases hcaller.2 with hempty | ⟨hsender', hstorage'⟩
    · exact absurd hempty (by rw [hne]; exact Bool.false_ne_true)
    · simp only [ContextFrom, hdelegate, if_true]
      exact ⟨hsender.trans hsender', hstorage.trans hstorage'⟩
  | false =>
    rw [hdelegate, if_neg Bool.false_ne_true] at hcontext
    simp only [ContextFrom, hdelegate, Bool.false_eq_true, if_false]
    exact ⟨hcontext.1.trans hcaller.1, hcontext.2⟩

theorem map_hash_of_answers {es : List Pushed} (h : List.Forall₂ (Answers hashes) es calls) :
    calls.map (fun child => hashes.callStackItem child.callStackItem) =
      es.map fun e => e.1.hash := by
  induction h with
  | nil => rfl
  | cons here _ ih => rw [List.map_cons, List.map_cons, ih, here.context.1]

theorem callTree_of_answers {call : PrivateCallData}
    (hok : RequestsOk call) (h : ChildrenAnswer pushes (Answers hashes) call calls) :
    calls.map (fun child => hashes.callStackItem child.callStackItem) =
        (privateHashes call.callStackItem).reverse ∧
      ∀ child ∈ calls, ContextFrom call.callStackItem child.callStackItem := by
  have hpushed : ∀ e ∈ (pushes call).reverse, e.2 = call := by
    intro e he
    obtain ⟨r, -, rfl⟩ := List.mem_map.1 (List.mem_reverse.1 he)
    rfl
  constructor
  · rw [map_hash_of_answers h, ← hok.privateHashes_eq, List.map_reverse, pushes, List.map_map]
    rfl
  · intro child hchild
    obtain ⟨e, he, hanswers⟩ := exists_of_forall₂ h child hchild
    exact hpushed e he ▸ hanswers.context.2

end

/-- **Every requested private call is verified once.**  The calls of an accepted chain are, in this
order, the nodes of a call tree whose root is the function of the transaction request; when the
hash of call stack items is injective no other tree has that root and those hashes.  The public call
requests of the output have, in some order, the hashes of the public calls of these calls. -/
theorem calls_form_tree (hashes : PrivateKernelHashes) (txRequest : TxRequest)
    (first : PrivateCallData) (later : List PrivateCallData) (hints : TailHints)
    (out : KernelPublicInputs) (h : chain hashes txRequest first later hints = .ok out) :
    ∃ tree : RoseTree PrivateCallData, tree.preorder = first :: later ∧ CallTree hashes tree ∧
      EntryPoint hashes txRequest first.callStackItem ∧
      (Function.Injective hashes.callStackItem → ∀ other : RoseTree PrivateCallStackItem,
        ItemTree hashes other → other.root = first.callStackItem →
          other = tree.map PrivateCallData.callStackItem) ∧
      ∃ nonRevertible revertible, Consistent out nonRevertible revertible ∧
        ((nonRevertible ++ revertible).map CallRequest.hash).Perm
          ((first :: later).flatMap fun c => publicHashes c.callStackItem) := by
  simp only [chain, bind_eq_ok] at h
  obtain ⟨p, hinit, q, hinner, htail⟩ := h
  obtain ⟨hentry, hok, hprivate, hpublic⟩ := init_stacks hinit
  rw [← map_fst_pushes] at hprivate
  obtain ⟨stack', t', hrun, hprivate', hpublic', hhashes⟩ :=
    run_of_inner later hinner hprivate (pushes_valid hok) hpublic
  obtain ⟨hnil, hcons⟩ := tail_stacks htail hprivate' hpublic'
  obtain ⟨ts, hcalls, hroots, hts⟩ := hrun.exists_forest (List.map_eq_nil_iff.1 hnil)
  have hwhole : (RoseTree.node first ts).Each (ChildrenAnswer pushes (Answers hashes)) :=
    .node hroots hts
  have hpass : ∀ c cs, ChildrenAnswer pushes (Answers hashes) c cs → ∀ d ∈ cs, RequestsOk d := by
    intro c cs hcs d hd
    obtain ⟨e, -, he⟩ := exists_of_forall₂ hcs d hd
    exact he.2.2
  have hgood := hwhole.strengthen hpass hok
  have htree : CallTree hashes (RoseTree.node first ts) :=
    hgood.imp fun c cs hc => callTree_of_answers hc.2 hc.1
  refine ⟨.node first ts, ?_, htree, hentry, ?_, _, _, hcons, ?_⟩
  · rw [RoseTree.preorder_node, ← hcalls]
  · intro hinj other hother hroot
    have hitems : ItemTree hashes ((RoseTree.node first ts).map PrivateCallData.callStackItem) :=
      htree.map fun c cs hc => by rw [List.map_map]; exact hc.1
    refine hitems.unique (fun item xs ys hx hy => ?_) other hother ?_
    · exact hinj.list_map (hx.trans hy.symm)
    · rw [hroot, RoseTree.root_map, RoseTree.root_node]
  · refine ((List.filter_append_perm _ _).map _).trans ?_
    rw [List.map_append, hhashes, hok.publicHashes_eq, List.flatMap_cons]

/-! ### A call that makes another -/

namespace OneNested

/-- Hashes under which a call stack item is told by the address of its contract. -/
def hashes : PrivateKernelHashes where
  callStackItem item := item.contractAddress + 100
  functionData f := f.selector
  txRequest r := r.origin + 500
  siloNoteHash address value := address + value
  siloNullifier address value := address + value
  computeL2ToL1Hash address _ _ message := address + message.content
  accumulateSha256 _ := Vector.replicate 2 0
  readRequestRootFromSiblings value _ _ := value
  computeInitializationHash selector args := selector + args
  computeFromPublicKey data := data.publicKeyX
  computeNewContractAddressHash address := address
  compressVk vk := vk
  privateFunctionsRootFromSiblings selector _ _ _ := selector
  computeContractClassId artifact _ _ := artifact
  computePartialAddress classId _ := classId
  computeAddress publicKeysHash _ := publicKeysHash
  derivePublicKey key := key
  computeSiloedNullifierSecretKey key _ := key
  computeNoteHashNonce first index := first + index
  computeUniqueSiloedNoteHash nonce value := nonce + value

def deployment : ContractDeploymentData := ⟨0, 0, 0, 0, 0, 0⟩

/-- A call of the function with selector 1 of a contract, with the given requests. -/
def call (address sender : Field) (isStatic : Bool) (noteHashes : Vector SideEffect 16)
    (requested enqueued : Vector CallRequest 4) : PrivateCallData :=
  { callStackItem :=
      { contractAddress := address
        functionData := ⟨1, false, true, false⟩
        publicInputs :=
          { callContext := ⟨sender, address, 0, 1, false, isStatic, false, 0⟩
            argsHash := 0
            returnValues := Vector.replicate 4 0
            minRevertibleSideEffectCounter := 0
            readRequests := Vector.replicate 32 ⟨0, 0⟩
            nullifierKeyValidationRequests := Vector.replicate 1 ⟨0, 0, 0, 0⟩
            newNoteHashes := noteHashes
            newNullifiers := Vector.replicate 16 ⟨0, 0, 0⟩
            privateCallStackHashes := requested.map CallRequest.hash
            publicCallStackHashes := enqueued.map CallRequest.hash
            newL2ToL1Msgs := Vector.replicate 2 ⟨0, 0⟩
            endSideEffectCounter := 0
            encryptedLogsHash := Vector.replicate 2 0
            unencryptedLogsHash := Vector.replicate 2 0
            encryptedLogPreimagesLength := 4
            unencryptedLogPreimagesLength := 4
            historicalHeader := ⟨0, 0, 0⟩
            contractDeploymentData := deployment
            chainId := 1
            version := 1 } }
    privateCallStack := requested
    publicCallStack := enqueued
    vk := 0
    saltedInitializationHash := 0
    publicKeysHash := address
    contractClassArtifactHash := 0
    contractClassPublicBytecodeCommitment := 0
    functionLeafIndex := 0
    functionLeafSiblingPath := []
    readRequestMembershipWitnesses := Vector.replicate 32 ⟨0, Vector.replicate 32 0, false⟩
    portalContractAddress := 0 }

def request (address caller : Field) : CallRequest := ⟨address + 100, caller, ⟨0, 0⟩, 3, 4⟩

def noRequests : Vector CallRequest 4 := Vector.replicate 4 Empty.empty

def noNoteHashes : Vector SideEffect 16 := Vector.replicate 16 ⟨0, 0⟩

/-- The entry point, contract 7, calls contract 8 and enqueues a public call of contract 9. -/
def first : PrivateCallData :=
  call 7 0 false noNoteHashes (noRequests.set! 0 (request 8 7))
    (noRequests.set! 0 (request 9 7))

def nested : PrivateCallData := call 8 7 false noNoteHashes noRequests noRequests

def txRequest : TxRequest :=
  ⟨7, 0, ⟨false, false, false, deployment, 1, 1⟩, ⟨1, false, true, false⟩⟩

def hints : TailHints :=
  { sortedNewNoteHashes := Vector.replicate 64 ⟨0, 0⟩
    sortedNewNoteHashesIndexes := Vector.replicate 64 0
    readCommitmentHints := Vector.replicate 128 0
    sortedNewNullifiers := (Vector.replicate 64 ⟨0, 0, 0⟩).set 0 ⟨507, 0, 0⟩ first_lt_sixtyFour
    sortedNewNullifiersIndexes := Vector.ofFn fun i => i.val
    nullifierCommitmentHints := Vector.replicate 64 0
    masterNullifierSecretKeys := Vector.replicate 4 (0, 0) }

theorem accepted : ∃ out, chain hashes txRequest first [nested] hints = .ok out := by
  cases h : chain hashes txRequest first [nested] hints with
  | ok out => exact ⟨out, rfl⟩
  | error e =>
    have hok : (chain hashes txRequest first [nested] hints).isOk = true := by decide +kernel
    rw [h] at hok
    exact absurd hok Bool.false_ne_true

end OneNested

open OneNested in
/-- The chain of the two calls. -/
theorem calls_form_tree_oneNested :
    ∃ tree : RoseTree PrivateCallData, tree.preorder = [first, nested] ∧ CallTree hashes tree := by
  obtain ⟨out, h⟩ := accepted
  obtain ⟨tree, hpreorder, htree, -⟩ :=
    calls_form_tree hashes txRequest first [nested] hints out h
  exact ⟨tree, hpreorder, htree⟩

end PrivateKernel
