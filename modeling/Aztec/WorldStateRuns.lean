/-
**Synchronising the world state through failures.**

The synchroniser of a node takes batches of blocks from a downloader and applies them to the six
trees one after the other.  A block that is handled goes through a list of steps: the uncommitted
changes are dropped and the effects inserted, which writes nothing, then each tree is committed in a
transaction of its own, two for an indexed tree, then the roots are compared and the snapshots
written, and last the number of the block is stored under another key.  Any step may be the last
one: the function throws there, and the rest of the batch is lost, or the process stops and is
started again from the store.
-/

import Aztec.WorldStateSync

open List

namespace WorldStateSynchronizer

open WorldState
open StandardIndexedTree (SameStores)

/-! ### The steps of a block -/

section Model

variable {Buffer : Type} [DecidableEq Buffer] (H : Hashes Buffer)

/-- The transactions of `#commit`: one for each tree, and another one for the leaves of an indexed
tree. -/
def commitWrites : List (World Buffer → World Buffer) :=
  [fun w => { w with contractTree := { w.contractTree with
      tree := w.contractTree.tree.commit } },
    fun w => { w with nullifierTree := { w.nullifierTree with
      tree := { w.nullifierTree.tree with
        toTreeBase := w.nullifierTree.tree.toTreeBase.commit } } },
    fun w => { w with nullifierTree := { w.nullifierTree with
      tree := w.nullifierTree.tree.commitLeaves } },
    fun w => { w with noteHashTree := { w.noteHashTree with tree := w.noteHashTree.tree.commit } },
    fun w => { w with publicDataTree := { w.publicDataTree with
      tree := { w.publicDataTree.tree with
        toTreeBase := w.publicDataTree.tree.toTreeBase.commit } } },
    fun w => { w with publicDataTree := { w.publicDataTree with
      tree := w.publicDataTree.tree.commitLeaves } },
    fun w => { w with l1ToL2MessageTree := { w.l1ToL2MessageTree with
      tree := w.l1ToL2MessageTree.tree.commit } },
    fun w => { w with archive := { w.archive with tree := w.archive.tree.commit } }]

def commitSteps : List (Step Buffer) := commitWrites.map fun write w => (write w, .ok ())

/-- What is done before the commit: nothing with the node's own block. -/
def beforeCommit (w : World Buffer) (b : L2Block Buffer) : List (Step Buffer) :=
  if isOurs w b then []
  else (fun w => (rollback w, .ok ())) :: (insertEffects H b ++ [updateArchive H b.header])

def afterCommit (b : L2Block Buffer) : List (Step Buffer) :=
  (fun w => (w, checkRoots w b)) :: snapshotSteps H b.number

def handleSteps (w : World Buffer) (b : L2Block Buffer) : List (Step Buffer) :=
  beforeCommit H w b ++ (commitSteps ++ afterCommit H b)

/-- `#handleL2Block`, interrupted after a number of steps. -/
def handleInterrupted (interrupt : Option ℕ) (w : World Buffer) (b : L2Block Buffer) :
    World Buffer × Except String Unit :=
  match interrupt with
  | none => runSteps (handleSteps H w b) w
  | some k => ((runSteps ((handleSteps H w b).take k) w).1, .error "interrupted")

/-! ### The synchroniser -/

/-- The state of the synchroniser and its downloader: the trees, the number in the store, the block
to download from, the batches that wait, and the rest of the batch that is being handled. -/
structure State (Buffer : Type) where
  world : World Buffer
  blockNumber : ℕ
  fromBlock : ℕ
  blockQueue : List (List (L2Block Buffer))
  current : List (L2Block Buffer)

inductive Event where
  /-- `collectBlocks` receives some of the next blocks. -/
  | download (count : ℕ)
  /-- `collectAndProcessBlocks` takes a batch from the queue. -/
  | collect
  /-- The next block of the batch is handled, and interrupted or not. -/
  | handle (interrupt : Option ℕ)
  /-- The process stops and is started again. -/
  | restart
  /-- The number of the block that is synchronised is reported. -/
  | report

/-- A turn of the loop of `handleL2Blocks`.  When it throws the rest of the batch is lost. -/
def handleBlock (interrupt : Option ℕ) (s : State Buffer) : State Buffer :=
  match s.current with
  | [] => s
  | b :: rest =>
    match handleInterrupted H interrupt s.world b with
    | (w, .ok _) => { s with world := w, blockNumber := b.number, current := rest }
    | (w, .error _) => { s with world := w, current := [] }

def step (chain : List (L2Block Buffer)) (s : State Buffer) : Event → State Buffer
  | .download count =>
    let blocks := (chain.drop (s.fromBlock - 1)).take (min count 10)
    if blocks = [] then s
    else { s with
      blockQueue := s.blockQueue ++ [blocks]
      fromBlock := s.fromBlock + blocks.length }
  | .collect =>
    match s.current, s.blockQueue with
    | [], blocks :: blockQueue => { s with current := blocks, blockQueue := blockQueue }
    | _, _ => s
  | .handle interrupt => handleBlock H interrupt s
  | .restart => { s with
      world := rollback s.world
      fromBlock := s.blockNumber + 1
      blockQueue := []
      current := [] }
  | .report => s

def initial (genesis : World Buffer) : State Buffer := ⟨genesis, 0, 1, [], []⟩

def run (chain : List (L2Block Buffer)) (s : State Buffer) (events : List Event) : State Buffer :=
  events.foldl (step H chain) s

end Model

/-! ### The committed part -/

section Committed

variable {Buffer : Type}

def bare (w : World Buffer) : World Buffer :=
  { contractTree := { w.contractTree with snapshots := .new }
    nullifierTree := { w.nullifierTree with snapshots := .new }
    noteHashTree := { w.noteHashTree with snapshots := .new }
    publicDataTree := { w.publicDataTree with snapshots := .new }
    l1ToL2MessageTree := { w.l1ToL2MessageTree with snapshots := .new }
    archive := { w.archive with snapshots := .new } }

def committedPart (w : World Buffer) : World Buffer := bare (rollback w)

variable {depth : ℕ} {Leaf : Type} {w' : World Buffer}

theorem rollback_eq_of_same {t t' : TreeBase Buffer depth} (h : TreeBase.SameCommitted t t') :
    t'.rollback = t.rollback := by
  cases t
  cases t'
  obtain ⟨rfl, rfl, rfl⟩ := h
  rfl

theorem rollback_eq_of_sameStores [IndexedTreeLeaf Leaf]
    {t t' : StandardIndexedTree Buffer Leaf depth} (h : SameStores t t') :
    t'.rollback = t.rollback := by
  have hbase := rollback_eq_of_same h.base
  cases t
  cases t'
  obtain ⟨-, rfl, rfl⟩ := h
  rw [StandardIndexedTree.rollback, StandardIndexedTree.rollback, hbase]

variable {w : World Buffer}

theorem committedPart_eq_of_same (h : SameCommittedView w w') :
    committedPart w' = committedPart w := by
  simp only [committedPart, rollback, bare, rollback_eq_of_same h.contractTree.tree,
    rollback_eq_of_sameStores h.nullifierTree.tree, rollback_eq_of_same h.noteHashTree.tree,
    rollback_eq_of_sameStores h.publicDataTree.tree,
    rollback_eq_of_same h.l1ToL2MessageTree.tree, rollback_eq_of_same h.archive.tree]

theorem rollback_commit_tree (t : TreeBase Buffer depth) : t.commit.rollback = t.commit := rfl

theorem rollback_commit_indexed [IndexedTreeLeaf Leaf] (t : StandardIndexedTree Buffer Leaf depth) :
    t.commit.rollback = t.commit := by
  have hbase : t.commit.toTreeBase.rollback = t.commit.toTreeBase := by
    rw [StandardIndexedTree.toTreeBase_commit]
    rfl
  rw [StandardIndexedTree.rollback, hbase]
  rfl

theorem rollback_commit (w : World Buffer) : rollback (commit w) = commit w := by
  rw [rollback]
  simp only [commit, rollback_commit_tree, rollback_commit_indexed]

theorem commitWrites_clean (h : rollback w = w)
    {write : World Buffer → World Buffer} (hwrite : write ∈ commitWrites) : write w = w := by
  rw [← h]
  simp only [commitWrites, mem_cons, not_mem_nil, or_false] at hwrite
  rcases hwrite with rfl | rfl | rfl | rfl | rfl | rfl | rfl | rfl <;> rfl

theorem runSteps_commitSteps (w : World Buffer) : runSteps commitSteps w = (commit w, .ok ()) := rfl

@[simp] theorem rollback_rollback (w : World Buffer) : rollback (rollback w) = rollback w := rfl

theorem committedPart_commit (w : World Buffer) : committedPart (commit w) = bare (commit w) := by
  rw [committedPart, rollback_commit]

theorem bare_commit (h : bare w = bare w') : bare (commit w) = bare (commit w') := by
  have hcommute : ∀ w : World Buffer, bare (commit w) = commit (bare w) := fun _ => rfl
  rw [hcommute, hcommute, h]

theorem archive_tree_bare (h : bare w = bare w') : w.archive.tree = w'.archive.tree := by
  have hcommute : ∀ w : World Buffer, (bare w).archive.tree = w.archive.tree := fun _ => rfl
  rw [← hcommute, h, hcommute]

theorem archive_tree_committedPart (h : committedPart w = committedPart w') :
    w.archive.tree.rollback = w'.archive.tree.rollback :=
  archive_tree_bare h

theorem l1ToL2MessageTree_committedPart {w w' : World Buffer}
    (h : committedPart w = committedPart w') :
    w.l1ToL2MessageTree.tree.rollback = w'.l1ToL2MessageTree.tree.rollback := by
  have hcommute : ∀ w : World Buffer, (committedPart w).l1ToL2MessageTree.tree =
      w.l1ToL2MessageTree.tree.rollback := fun _ => rfl
  rw [← hcommute, h, hcommute]

end Committed

/-! ### Steps that do not look at snapshots -/

section Bare

variable {Buffer : Type} [DecidableEq Buffer] {H : Hashes Buffer}

def IgnoresSnapshots (st : Step Buffer) : Prop :=
  ∀ w, st (bare w) = (bare (st w).1, (st w).2)

omit [DecidableEq Buffer] in
theorem IgnoresSnapshots.runSteps {steps : List (Step Buffer)}
    (h : ∀ st ∈ steps, IgnoresSnapshots st) : IgnoresSnapshots (runSteps steps) := by
  induction steps with
  | nil => exact fun _ => rfl
  | cons st steps ih =>
    intro w
    have hstep := h st mem_cons_self w
    rw [WorldState.runSteps, WorldState.runSteps, hstep]
    cases hst : st w with
    | mk w' result =>
      cases result with
      | ok u => exact ih (fun st' hmem => h st' (mem_cons_of_mem _ hmem)) w'
      | error msg => rfl

omit [DecidableEq Buffer] in
theorem IgnoresSnapshots.congr {st : Step Buffer} (h : IgnoresSnapshots st) {w w' : World Buffer}
    (hbare : bare w = bare w') : bare (st w).1 = bare (st w').1 ∧ (st w).2 = (st w').2 := by
  have hw := h w
  rw [hbare, h w', Prod.mk.injEq] at hw
  exact ⟨hw.1.symm, hw.2.symm⟩

omit [DecidableEq Buffer] in
theorem appendLeaves_snapshots {depth : ℕ} (t : AppendOnly Buffer depth)
    (snapshots : AppendOnlySnapshotBuilder Buffer) (leaves : List Buffer) :
    AppendOnly.appendLeaves H { t with snapshots := snapshots } leaves =
      ({ (t.appendLeaves H leaves).1 with snapshots := snapshots },
        (t.appendLeaves H leaves).2) := by
  simp only [AppendOnly.appendLeaves]
  cases t.tree.appendLeaves H.hash H.zero leaves <;> rfl

omit [DecidableEq Buffer] in
theorem batchInsert_snapshots {Leaf : Type} [IndexedTreeLeaf Leaf] {depth : ℕ}
    (hasher : Hasher Buffer Leaf) (t : Indexed Buffer Leaf depth)
    (snapshots : BaseFullTreeSnapshotBuilder Buffer (Preimage Leaf)) (leaves : List Leaf)
    (subtreeHeight : ℕ) :
    Indexed.batchInsert hasher { t with snapshots := snapshots } leaves subtreeHeight =
      ({ (t.batchInsert hasher leaves subtreeHeight).1 with snapshots := snapshots },
        (t.batchInsert hasher leaves subtreeHeight).2) := by
  simp only [Indexed.batchInsert]
  cases t.tree.batchInsert hasher leaves subtreeHeight with
  | mk tree result => cases result <;> rfl

theorem ignoresSnapshots_sync (b : L2Block Buffer) :
    IgnoresSnapshots (runSteps (insertEffects H b ++ [updateArchive H b.header])) := by
  refine IgnoresSnapshots.runSteps fun st hst w => ?_
  rw [mem_append, insertEffects, mem_append] at hst
  rcases hst with (hst | hst) | hst
  · simp only [mem_cons, not_mem_nil, or_false] at hst
    rcases hst with rfl | rfl | rfl | rfl
    · have h := appendLeaves_snapshots (H := H) w.contractTree .new
        (b.txEffects.flatMap TxEffect.contractLeaves)
      simp only [appendContracts, bare, h]
    · have h := appendLeaves_snapshots (H := H) w.noteHashTree .new
        (b.txEffects.flatMap TxEffect.newNoteHashes)
      simp only [appendNoteHashes, bare, h]
    · have h := appendLeaves_snapshots (H := H) w.l1ToL2MessageTree .new b.l1ToL2Messages
      simp only [appendMessages, bare, h]
    · have h := batchInsert_snapshots (nullifierHasher H) w.nullifierTree .new
        (b.txEffects.flatMap TxEffect.newNullifiers) 6
      simp only [insertNullifiers, bare, h]
  · obtain ⟨leaves, -, rfl⟩ := mem_map.1 hst
    have h := batchInsert_snapshots (publicDataHasher H) w.publicDataTree .new leaves 5
    simp only [insertPublicData, bare, h]
  · rw [mem_singleton] at hst
    subst hst
    have h := appendLeaves_snapshots (H := H) w.archive .new [H.header b.header]
    have hstate : getStateReference (bare w) true = getStateReference w true := rfl
    by_cases heq : getStateReference w true = b.header.state
    · rw [updateArchive, if_neg (not_not.2 (hstate.trans heq)), updateArchive,
        if_neg (not_not.2 heq)]
      simp only [bare, h]
    · rw [updateArchive, if_pos (by rwa [hstate]), updateArchive, if_pos heq]

theorem syncFromChain_congr {w w' : World Buffer} (h : committedPart w = committedPart w')
    (b : L2Block Buffer) : bare (syncFromChain H b w).1 = bare (syncFromChain H b w').1 ∧
      (syncFromChain H b w).2 = (syncFromChain H b w').2 :=
  (ignoresSnapshots_sync b).congr h

end Bare

/-! ### A chain of blocks -/

section Chain

variable {Buffer : Type} [DecidableEq Buffer] {H : Hashes Buffer}

/-- The trees after the first blocks of the chain, one after the other. -/
def ledger (H : Hashes Buffer) (genesis : World Buffer) (chain : List (L2Block Buffer)) (k : ℕ) :
    World Buffer :=
  (chain.take k).foldl (fun w b => commit (syncFromChain H b w).1) genesis

/-- The chain is one of blocks that apply one after the other and have the roots that they lead to.
Each has messages, since the archiver pads their list, and no two lead to the same archive. -/
structure ChainOk (H : Hashes Buffer) (genesis : World Buffer) (chain : List (L2Block Buffer)) :
    Prop where
  genesis_clean : rollback genesis = genesis
  number : ∀ k b, chain[k]? = some b → b.number = k + 1
  synced : ∀ k b, chain[k]? = some b → (syncFromChain H b (ledger H genesis chain k)).2.isOk = true
  roots : ∀ k b, chain[k]? = some b →
    publishedRoots b = getRoots (ledger H genesis chain (k + 1)) false
  messages : ∀ b ∈ chain, b.l1ToL2Messages ≠ []
  archive_inj : ∀ k ≤ chain.length, ∀ l ≤ chain.length,
    (ledger H genesis chain k).archive.tree.root = (ledger H genesis chain l).archive.tree.root →
      k = l

variable {genesis : World Buffer} {chain : List (L2Block Buffer)}

variable {b : L2Block Buffer}

theorem ledger_succ {k : ℕ} (hb : chain[k]? = some b) : ledger H genesis chain (k + 1) =
      commit (syncFromChain H b (ledger H genesis chain k)).1 := by
  obtain ⟨hk, rfl⟩ := List.getElem?_eq_some_iff.1 hb
  rw [ledger, take_succ_eq_append_getElem hk, foldl_append]
  rfl

variable {w w' : World Buffer}

omit [DecidableEq Buffer] in
theorem runSteps_append_ok {steps steps' : List (Step Buffer)} (h : runSteps (steps ++ steps') w = (w', .ok ())) :
    ∃ mid, runSteps steps w = (mid, .ok ()) ∧ runSteps steps' mid = (w', .ok ()) := by
  rw [runSteps_append] at h
  split at h
  · next mid _ hmid => exact ⟨mid, hmid, h⟩
  · cases h

omit [DecidableEq Buffer] in
theorem runSteps_messages {steps : List (Step Buffer)} {result : Except String Unit} (h : runSteps steps w = (w', result))
    (hsteps : ∀ st ∈ steps, ∀ w, (st w).1.l1ToL2MessageTree = w.l1ToL2MessageTree) :
    w'.l1ToL2MessageTree = w.l1ToL2MessageTree := by
  have hkeeps := runSteps_keeps (P := fun w w' => w'.l1ToL2MessageTree = w.l1ToL2MessageTree)
    (fun _ => rfl) (fun _ _ _ h h' => h'.trans h) hsteps w
  rwa [h] at hkeeps

omit [DecidableEq Buffer] in
theorem insertEffects_messages {b : L2Block Buffer} (h : runSteps (insertEffects H b) w = (w', .ok ())) :
    w'.l1ToL2MessageTree.tree.getNumLeaves true =
      w.l1ToL2MessageTree.tree.getNumLeaves true + b.l1ToL2Messages.length := by
  have hsplit : insertEffects H b =
      [appendContracts H (b.txEffects.flatMap TxEffect.contractLeaves),
        appendNoteHashes H (b.txEffects.flatMap TxEffect.newNoteHashes)] ++
      ([appendMessages H b.l1ToL2Messages] ++
        (insertNullifiers H (b.txEffects.flatMap TxEffect.newNullifiers) ::
          (publicDataBatches (b.txEffects.flatMap TxEffect.newPublicDataWrites)).map
            (insertPublicData H))) := rfl
  rw [hsplit] at h
  obtain ⟨w₁, h₁, h⟩ := runSteps_append_ok h
  obtain ⟨w₂, h₂, h₃⟩ := runSteps_append_ok h
  have hbefore := runSteps_messages h₁ (by
    intro st hst w
    simp only [mem_cons, not_mem_nil, or_false] at hst
    rcases hst with rfl | rfl <;> rfl)
  have hafter := runSteps_messages h₃ (by
    intro st hst w
    rcases mem_cons.1 hst with rfl | hst
    · rfl
    · obtain ⟨leaves, -, rfl⟩ := mem_map.1 hst
      rfl)
  rw [hafter, ← hbefore]
  -- the step between the two appends the messages
  rw [runSteps, appendMessages, AppendOnly.appendLeaves] at h₂
  cases happend : w₁.l1ToL2MessageTree.tree.appendLeaves H.hash H.zero b.l1ToL2Messages with
  | error msg =>
    rw [happend] at h₂
    cases h₂
  | ok tree =>
    rw [happend] at h₂
    obtain ⟨rfl, -⟩ := Prod.mk.inj h₂
    exact (TreeBase.appendLeaves_same happend).2.1

theorem updateArchive_messages (header : Header Buffer) (w : World Buffer) :
    (updateArchive H header w).1.l1ToL2MessageTree = w.l1ToL2MessageTree := by
  unfold updateArchive
  split <;> rfl

theorem sync_sizes (h : (syncFromChain H b w).2.isOk = true) :
    b.header.state.l1ToL2MessageTree.nextAvailableLeafIndex =
        w.l1ToL2MessageTree.tree.size + b.l1ToL2Messages.length ∧
      (commit (syncFromChain H b w).1).l1ToL2MessageTree.tree.size =
        w.l1ToL2MessageTree.tree.size + b.l1ToL2Messages.length ∧
      (commit (syncFromChain H b w).1).archive.tree.size = w.archive.tree.size + 1 := by
  obtain ⟨w', hsync⟩ : ∃ w', syncFromChain H b w = (w', .ok ()) := by
    cases hsync : syncFromChain H b w with
    | mk w' result =>
      rw [hsync] at h
      cases result with
      | ok u => exact ⟨w', rfl⟩
      | error msg => cases h
  obtain ⟨hstate, harchive⟩ := syncFromChain_ok hsync
  have hmessages : w'.l1ToL2MessageTree.tree.getNumLeaves true =
      w.l1ToL2MessageTree.tree.size + b.l1ToL2Messages.length := by
    obtain ⟨mid, hmid, hlast⟩ := runSteps_append_ok (show runSteps (insertEffects H b ++
      [updateArchive H b.header]) (rollback w) = (w', .ok ()) from hsync)
    have hkept := runSteps_messages hlast (by
      intro st hst w
      rw [mem_singleton] at hst
      subst hst
      exact updateArchive_messages b.header w)
    rw [hkept, insertEffects_messages hmid]
    rfl
  refine ⟨?_, ?_, ?_⟩
  · rw [← hstate]
    exact hmessages
  · rw [hsync]
    exact hmessages
  · rw [hsync]
    exact (TreeBase.appendLeaves_same harchive).2.1

theorem archive_size (hsynced : ∀ k b, chain[k]? = some b →
      (syncFromChain H b (ledger H genesis chain k)).2.isOk = true) {k : ℕ} (hk : k ≤ chain.length) :
    (ledger H genesis chain k).archive.tree.size = genesis.archive.tree.size + k := by
  induction k with
  | zero => rfl
  | succ k ih =>
    have hb : chain[k]? = some chain[k] := List.getElem?_eq_getElem hk
    rw [ledger_succ hb, (sync_sizes (hsynced k _ hb)).2.2, ih (Nat.le_of_succ_le hk)]
    rfl

section

variable (hok : ChainOk H genesis chain)
include hok

theorem ChainOk.message_sizes {k : ℕ} (hb : chain[k]? = some b) :
    (ledger H genesis chain (k + 1)).l1ToL2MessageTree.tree.size =
      (ledger H genesis chain k).l1ToL2MessageTree.tree.size + b.l1ToL2Messages.length := by
  rw [ledger_succ hb]
  exact (sync_sizes (hok.synced k b hb)).2.1

theorem ChainOk.messages_lt {k l : ℕ} (hkl : k < l) (hl : l ≤ chain.length) :
    (ledger H genesis chain k).l1ToL2MessageTree.tree.size <
      (ledger H genesis chain l).l1ToL2MessageTree.tree.size := by
  induction l with
  | zero => exact absurd hkl (Nat.not_lt_zero k)
  | succ l ih =>
    have hb : chain[l]? = some chain[l] := List.getElem?_eq_getElem hl
    have hsize := hok.message_sizes hb
    have hpos := length_pos_iff.2 (hok.messages _ (getElem_mem hl))
    rcases Nat.lt_succ_iff_lt_or_eq.1 hkl with hlt | rfl
    · have := ih hlt (Nat.le_of_succ_le hl)
      omega
    · omega

theorem ChainOk.sync_next {p k : ℕ} (hp : p ≤ chain.length)
    (hw : committedPart w = committedPart (ledger H genesis chain p))
    (hb : chain[k]? = some b) (hsync : (syncFromChain H b w).2.isOk = true) : k = p := by
  have hwsize : w.l1ToL2MessageTree.tree.size =
      (ledger H genesis chain p).l1ToL2MessageTree.tree.size := by
    have hsize := congrArg TreeBase.size (l1ToL2MessageTree_committedPart hw)
    exact hsize
  have hhere := (sync_sizes hsync).1
  have hthere := (sync_sizes (hok.synced k b hb)).1
  obtain ⟨hk, -⟩ := List.getElem?_eq_some_iff.1 hb
  rcases Nat.lt_trichotomy k p with hlt | heq | hlt
  · have := hok.messages_lt hlt hp
    omega
  · exact heq
  · have := hok.messages_lt hlt hk.le
    omega

end

theorem commit_sync {p : ℕ} (hw : committedPart w = committedPart (ledger H genesis chain p))
    (hb : chain[p]? = some b) : committedPart (commit (syncFromChain H b w).1) =
      committedPart (ledger H genesis chain (p + 1)) := by
  rw [ledger_succ hb, committedPart_commit, committedPart_commit]
  exact bare_commit (syncFromChain_congr hw b).1

end Chain

/-! ### What an interrupted block leaves -/

section Handle

variable {Buffer : Type} [DecidableEq Buffer] {H : Hashes Buffer} {w : World Buffer}
  {b : L2Block Buffer}

omit [DecidableEq Buffer] in
theorem runSteps_take_of_error {steps : List (Step Buffer)} {w' : World Buffer} {msg : String}
    (h : runSteps steps w = (w', .error msg)) (steps' : List (Step Buffer)) (k : ℕ) :
    runSteps ((steps ++ steps').take k) w = runSteps (steps.take k) w := by
  rw [take_append]
  rcases Nat.le_total k steps.length with hk | hk
  · rw [Nat.sub_eq_zero_of_le hk, take_zero, append_nil]
  · rw [take_of_length_le hk, runSteps_append, h]

theorem updateArchive_error {header : Header Buffer}
    (h : (updateArchive H header w).2.isOk = false) :
    (updateArchive H header w).1.archive = w.archive := by
  unfold updateArchive at h ⊢
  by_cases hstate : getStateReference w true = header.state
  · rw [if_neg (not_not.2 hstate)] at h ⊢
    dsimp only at h ⊢
    unfold AppendOnly.appendLeaves at h ⊢
    cases happend : w.archive.tree.appendLeaves H.hash H.zero [H.header header] with
    | ok tree =>
      rw [happend] at h
      cases h
    | error msg => rfl
  · rw [if_pos hstate]

theorem sync_take (H : Hashes Buffer) (b : L2Block Buffer) (k : ℕ) (w : World Buffer) :
    SameCommittedView w (runSteps ((insertEffects H b ++ [updateArchive H b.header]).take k) w).1 ∧
      ((runSteps ((insertEffects H b ++ [updateArchive H b.header]).take k) w).1.archive =
          w.archive ∨ (runSteps (insertEffects H b ++ [updateArchive H b.header]) w).2.isOk = true ∧
          (runSteps ((insertEffects H b ++ [updateArchive H b.header]).take k) w).1 =
            (runSteps (insertEffects H b ++ [updateArchive H b.header]) w).1) := by
  rcases Nat.lt_or_ge (insertEffects H b).length k with hk | hk
  · rw [take_of_length_le (by simpa using hk)]
    have hkeeps := insertEffects_keeps H b w
    rw [runSteps_append]
    cases hinsert : runSteps (insertEffects H b) w with
    | mk mid result =>
      rw [hinsert] at hkeeps
      cases result with
      | error msg => exact ⟨hkeeps.1, .inl hkeeps.2⟩
      | ok u =>
        have hsame := hkeeps.1.trans (updateArchive_same H b.header mid)
        dsimp only
        rw [runSteps]
        cases hupdate : updateArchive H b.header mid with
        | mk w' result =>
          rw [hupdate] at hsame
          cases result with
          | ok u => exact ⟨hsame, .inr ⟨rfl, rfl⟩⟩
          | error msg =>
            have hfails : (updateArchive H b.header mid).2.isOk = false := by
              rw [hupdate]
              rfl
            have herror := updateArchive_error hfails
            rw [hupdate] at herror
            exact ⟨hsame, .inl (herror.trans hkeeps.2)⟩
  · rw [take_append_of_le_length hk]
    have hkeeps := insertEffects_take_keeps H b k w
    exact ⟨hkeeps.1, .inl hkeeps.2⟩

/-- What the archive of an interrupted block may be: what it was, what is committed, or the one
with the hash of the header. -/
def ArchiveAfter (H : Hashes Buffer) (w : World Buffer) (b : L2Block Buffer) (w' : World Buffer) :
    Prop :=
  w'.archive.tree.getRoot true = w.archive.tree.getRoot true ∨
    w'.archive.tree.getRoot true = w.archive.tree.root ∨
    (syncFromChain H b w).2.isOk = true ∧ w' = (syncFromChain H b w).1

theorem beforeCommit_take (hours : isOurs w b = false) (k : ℕ) :
    committedPart (runSteps ((beforeCommit H w b).take k) w).1 = committedPart w ∧
      ArchiveAfter H w b (runSteps ((beforeCommit H w b).take k) w).1 := by
  have hbefore : beforeCommit H w b =
      (fun w => (rollback w, .ok ())) :: (insertEffects H b ++ [updateArchive H b.header]) := by
    rw [beforeCommit, hours]
    rfl
  rw [hbefore]
  cases k with
  | zero => exact ⟨rfl, .inl rfl⟩
  | succ k =>
    obtain ⟨hsame, harchive⟩ := sync_take H b k (rollback w)
    refine ⟨committedPart_eq_of_same ((sameCommittedView_rollback w).trans hsame), ?_⟩
    rcases harchive with harchive | harchive
    · refine .inr (.inl ?_)
      change (runSteps _ (rollback w)).1.archive.tree.getRoot true = _
      rw [harchive]
      rfl
    · exact .inr (.inr harchive)

theorem afterCommit_bare {st : Step Buffer} (hst : st ∈ afterCommit H b) (w : World Buffer) :
    bare (st w).1 = bare w := by
  simp only [afterCommit, snapshotSteps, mem_cons, not_mem_nil, or_false] at hst
  rcases hst with rfl | rfl | rfl | rfl | rfl | rfl | rfl
  · rfl
  · obtain ⟨snapshots, h⟩ := w.contractTree.snapshot_eq b.number
    simp only [h]
    rfl
  · obtain ⟨snapshots, h⟩ := w.nullifierTree.snapshot_eq H b.number
    simp only [h]
    rfl
  · obtain ⟨snapshots, h⟩ := w.noteHashTree.snapshot_eq b.number
    simp only [h]
    rfl
  · obtain ⟨snapshots, h⟩ := w.publicDataTree.snapshot_eq H b.number
    simp only [h]
    rfl
  · obtain ⟨snapshots, h⟩ := w.l1ToL2MessageTree.snapshot_eq b.number
    simp only [h]
    rfl
  · obtain ⟨snapshots, h⟩ := w.archive.snapshot_eq b.number
    simp only [h]
    rfl

theorem afterCommit_take_bare (k : ℕ) (w : World Buffer) :
    bare (runSteps ((afterCommit H b).take k) w).1 = bare w :=
  runSteps_keeps (P := fun w w' => bare w' = bare w) (fun _ => rfl) (fun _ _ _ h h' => h'.trans h)
    (fun _ hst => afterCommit_bare (mem_of_mem_take hst)) w

omit [DecidableEq Buffer] in
theorem committedPart_of_bare {w w' : World Buffer} (h : bare w' = bare w) :
    committedPart w' = committedPart w := by
  have hcommute : ∀ w : World Buffer, committedPart w = rollback (bare w) := fun _ => rfl
  rw [hcommute, hcommute, h]

theorem ours_take (hours : isOurs w b = true) (hclean : rollback w = w) (k : ℕ) :
    bare (runSteps ((handleSteps H w b).take k) w).1 = bare w := by
  have hsteps : handleSteps H w b = commitSteps ++ afterCommit H b := by
    rw [handleSteps, beforeCommit, hours]
    rfl
  have hcommit : (runSteps (commitSteps.take k) w).1 = w := by
    have hstep : ∀ st ∈ (@commitSteps Buffer).take k, ∀ w, rollback w = w → (st w).1 = w := by
      intro st hst w hw
      obtain ⟨write, hwrite, rfl⟩ := mem_map.1 (mem_of_mem_take hst)
      exact commitWrites_clean hw hwrite
    have hkeeps := runSteps_keeps (P := fun w w' : World Buffer => rollback w = w → w' = w)
      (fun _ _ => rfl) (fun _ _ _ h h' hw => (h' (by rw [h hw, hw])).trans (h hw)) hstep w
    exact hkeeps hclean
  rw [hsteps, take_append, runSteps_append]
  cases hrun : runSteps (commitSteps.take k) w with
  | mk w' result =>
    rw [hrun] at hcommit
    subst hcommit
    cases result with
    | ok u => exact afterCommit_take_bare _ _
    | error msg => rfl

/-- The interruption is strictly inside the commit: some of its transactions are written, and some
are not. -/
def InsideCommit (H : Hashes Buffer) (w : World Buffer) (b : L2Block Buffer) (k : ℕ) : Prop :=
  (beforeCommit H w b).length < k ∧ k < (beforeCommit H w b).length + 8

theorem other_take (hours : isOurs w b = false) {k : ℕ} (hk : ¬ InsideCommit H w b k) :
    (committedPart (runSteps ((handleSteps H w b).take k) w).1 = committedPart w ∧
      ArchiveAfter H w b (runSteps ((handleSteps H w b).take k) w).1 ∧
      ((runSteps ((handleSteps H w b).take k) w).2.isOk = true → k ≤ (beforeCommit H w b).length)) ∨
    (syncFromChain H b w).2.isOk = true ∧ bare (runSteps ((handleSteps H w b).take k) w).1 =
        bare (commit (syncFromChain H b w).1) := by
  have hbefore := beforeCommit_take (H := H) hours k
  have hrun : runSteps (beforeCommit H w b) w = syncFromChain H b w := by
    rw [beforeCommit, hours]
    rfl
  by_cases hlt : k ≤ (beforeCommit H w b).length
  · have htake : (handleSteps H w b).take k = (beforeCommit H w b).take k :=
      take_append_of_le_length hlt
    rw [htake]
    exact .inl ⟨hbefore.1, hbefore.2, fun _ => hlt⟩
  have hfar : (beforeCommit H w b).length + 8 ≤ k := by
    by_contra hnear
    exact hk ⟨not_le.1 hlt, not_le.1 hnear⟩
  cases hsync : syncFromChain H b w with
  | mk w' result =>
    rw [hsync] at hrun
    cases result with
    | error msg =>
      have htake := runSteps_take_of_error hrun (commitSteps ++ afterCommit H b) k
      rw [handleSteps, htake]
      refine .inl ⟨hbefore.1, hbefore.2, fun hisOk => ?_⟩
      rw [take_of_length_le (by omega), hrun] at hisOk
      cases hisOk
    | ok u =>
      refine .inr ⟨rfl, ?_⟩
      have hlength : (@commitSteps Buffer).length = 8 := rfl
      rw [handleSteps, take_append, take_of_length_le (by omega), runSteps_append, hrun]
      dsimp only
      rw [take_append, take_of_length_le (by rw [hlength]; omega), runSteps_append,
        runSteps_commitSteps]
      exact afterCommit_take_bare _ _

end Handle

/-! ### Runs -/

section Runs

variable {Buffer : Type} [DecidableEq Buffer] {H : Hashes Buffer} {genesis : World Buffer}
  {chain : List (L2Block Buffer)}

/-- What a step must not be.  A block that is taken for the node's own has no uncommitted changes in
its way, another one is not interrupted strictly inside its commit, and the number is reported when
it is that of the last block in the archive. -/
def StepOk (H : Hashes Buffer) (genesis : World Buffer) (s : State Buffer) : Event → Prop
  | .handle interrupt => ∀ b rest, s.current = b :: rest →
      (isOurs s.world b = true → rollback s.world = s.world) ∧
        (isOurs s.world b = false → ∀ k, interrupt = some k → ¬ InsideCommit H s.world b k)
  | .report => s.world.archive.tree.size = genesis.archive.tree.size + s.blockNumber
  | _ => True

def StepsOk (H : Hashes Buffer) (genesis : World Buffer) (chain : List (L2Block Buffer)) :
    State Buffer → List Event → Prop
  | _, [] => True
  | s, event :: events =>
    StepOk H genesis s event ∧ StepsOk H genesis chain (step H chain s event) events

/-- **The committed trees are those after a prefix of the chain**, and the number in the store is of
a block that is applied. -/
def Sound (H : Hashes Buffer) (genesis : World Buffer) (chain : List (L2Block Buffer))
    (s : State Buffer) : Prop :=
  ∃ p ≤ chain.length, committedPart s.world = committedPart (ledger H genesis chain p) ∧
    s.blockNumber ≤ p

/-- **The number that is reported is that of the block after which the committed trees are.** -/
def Reports (H : Hashes Buffer) (genesis : World Buffer) (chain : List (L2Block Buffer))
    (s : State Buffer) : Prop :=
  committedPart s.world = committedPart (ledger H genesis chain s.blockNumber)

/-- The invariant of a run: the committed trees are those after `p` blocks, and the block at place
`n` of the chain is the next one that is handled. -/
structure Inv (H : Hashes Buffer) (genesis : World Buffer) (chain : List (L2Block Buffer))
    (s : State Buffer) (p n : ℕ) : Prop where
  committed : committedPart s.world = committedPart (ledger H genesis chain p)
  length : p ≤ chain.length
  stored : s.blockNumber ≤ p
  handled : s.blockNumber ≤ n
  waiting : s.current ++ s.blockQueue.flatten = (chain.take (s.fromBlock - 1)).drop n
  started : 1 ≤ s.fromBlock
  downloaded : s.fromBlock - 1 ≤ chain.length
  next : n ≤ s.fromBlock - 1
  -- the uncommitted archive is that of a block that has been handled
  archive : ∃ q ≤ max p n,
    s.world.archive.tree.getRoot true = (ledger H genesis chain q).archive.tree.root

variable {s : State Buffer} {p n : ℕ}

omit [DecidableEq Buffer] in
theorem root_of_committedPart {w w' : World Buffer} (h : committedPart w = committedPart w') :
    w.archive.tree.root = w'.archive.tree.root := by
  have hroot := congrArg TreeBase.root (archive_tree_committedPart h)
  exact hroot

theorem Inv.initial (hok : ChainOk H genesis chain) :
    Inv H genesis chain (initial genesis) 0 0 where
  committed := rfl
  length := Nat.zero_le _
  stored := le_rfl
  handled := le_rfl
  waiting := rfl
  started := le_rfl
  downloaded := Nat.zero_le _
  next := le_rfl
  archive := by
    refine ⟨0, le_rfl, ?_⟩
    change genesis.archive.tree.getRoot true = genesis.archive.tree.root
    rw [← hok.genesis_clean]
    rfl

section

variable (h : Inv H genesis chain s p n)
include h

theorem Inv.download (count : ℕ) : Inv H genesis chain (step H chain s (.download count)) p n := by
  rw [step]
  split
  · exact h
  · generalize hblocks : (chain.drop (s.fromBlock - 1)).take (min count 10) = blocks
    have hlen : blocks.length ≤ chain.length - (s.fromBlock - 1) := by
      rw [← hblocks, length_take, length_drop]
      exact Nat.min_le_right _ _
    have hprefix : (chain.drop (s.fromBlock - 1)).take blocks.length = blocks := by
      rw [← hblocks, length_take, take_eq_take_iff, length_drop]
      omega
    have hstarted := h.started
    have hdownloaded := h.downloaded
    have hnext := h.next
    have hfrom : s.fromBlock + blocks.length - 1 = s.fromBlock - 1 + blocks.length := by omega
    refine ⟨h.committed, h.length, h.stored, h.handled, ?_, ?_, ?_, ?_, h.archive⟩
    · rw [flatten_append, ← append_assoc, h.waiting, hfrom, take_add, hprefix,
        drop_append_of_le_length (by rw [length_take]; omega)]
      simp
    · exact Nat.le_add_right_of_le hstarted
    · dsimp only
      omega
    · dsimp only
      omega

theorem Inv.collect : Inv H genesis chain (step H chain s .collect) p n := by
  rw [step]
  split
  · next blocks blockQueue hcurrent hqueue =>
    refine ⟨h.committed, h.length, h.stored, h.handled, ?_, h.started, h.downloaded, h.next,
      h.archive⟩
    rw [← h.waiting, hcurrent, hqueue]
    rfl
  · exact h

theorem Inv.restart : Inv H genesis chain (step H chain s .restart) p s.blockNumber := by
  have hstored := h.stored
  have hlength := h.length
  refine ⟨h.committed, h.length, h.stored, le_rfl, ?_, ?_, ?_, le_rfl, p, le_max_left _ _, ?_⟩
  · rw [step]
    simp
  · exact Nat.le_add_left 1 _
  · exact hstored.trans hlength
  · exact root_of_committedPart h.committed

end

omit [DecidableEq Buffer] in
theorem getRoot_commit (w : World Buffer) :
    (commit w).archive.tree.getRoot true = (commit w).archive.tree.root := rfl

variable {rest : List (L2Block Buffer)} {interrupt : Option ℕ}

theorem Inv.current_cons (h : Inv H genesis chain s p n) (hcurrent : s.current = b :: rest) :
    chain[n]? = some b ∧ n < s.fromBlock - 1 ∧
      rest ++ s.blockQueue.flatten = (chain.take (s.fromBlock - 1)).drop (n + 1) := by
  have hwaiting := h.waiting
  rw [hcurrent, cons_append] at hwaiting
  have hn : n < (chain.take (s.fromBlock - 1)).length := by
    by_contra hge
    rw [drop_of_length_le (not_lt.1 hge)] at hwaiting
    cases hwaiting
  rw [drop_eq_getElem_cons hn, List.cons.injEq] at hwaiting
  rw [length_take] at hn
  refine ⟨?_, by omega, hwaiting.2⟩
  rw [hwaiting.1, getElem_take, List.getElem?_eq_getElem]

theorem ChainOk.archiveRoot (hok : ChainOk H genesis chain) (hb : chain[n]? = some b) :
    b.archiveRoot = (ledger H genesis chain (n + 1)).archive.tree.root := by
  have hroots := hok.roots n b hb
  simp only [publishedRoots, getRoots, List.cons.injEq] at hroots
  exact hroots.2.2.2.2.2.1

theorem commit_sync_root (hw : committedPart s.world = committedPart (ledger H genesis chain p)) (hb : chain[p]? = some b) :
    (commit (syncFromChain H b s.world).1).archive.tree.root =
      (ledger H genesis chain (p + 1)).archive.tree.root :=
  root_of_committedPart (commit_sync hw hb)

section

variable (hok : ChainOk H genesis chain) (h : Inv H genesis chain s p n)
include hok h

theorem Inv.handled_world (hcurrent : s.current = b :: rest)
    (hstep : StepOk H genesis s (.handle interrupt)) : ∃ p', p ≤ p' ∧ p' ≤ chain.length ∧
      committedPart (handleInterrupted H interrupt s.world b).1 =
        committedPart (ledger H genesis chain p') ∧
      (∃ q ≤ max p' (n + 1), (handleInterrupted H interrupt s.world b).1.archive.tree.getRoot true =
        (ledger H genesis chain q).archive.tree.root) ∧
      ((handleInterrupted H interrupt s.world b).2.isOk = true → n + 1 ≤ p') := by
  obtain ⟨hb, hn, -⟩ := h.current_cons hcurrent
  obtain ⟨hclean, hinside⟩ := hstep b rest hcurrent
  obtain ⟨q, hq, hroot⟩ := h.archive
  have hlength : n < chain.length := lt_of_lt_of_le hn h.downloaded
  -- the function is interrupted after `k` steps, or has as many
  obtain ⟨k, hworld, hisOk, hk⟩ : ∃ k, (handleInterrupted H interrupt s.world b).1 =
        (runSteps ((handleSteps H s.world b).take k) s.world).1 ∧
      ((handleInterrupted H interrupt s.world b).2.isOk = true →
        (runSteps ((handleSteps H s.world b).take k) s.world).2.isOk = true ∧
          (beforeCommit H s.world b).length < k) ∧
      (isOurs s.world b = false → ¬ InsideCommit H s.world b k) := by
    have hsteps : (handleSteps H s.world b).length =
        (beforeCommit H s.world b).length + (8 + (afterCommit H b).length) := by
      rw [handleSteps, length_append, length_append]
      rfl
    cases interrupt with
    | none =>
      refine ⟨(handleSteps H s.world b).length, ?_, fun hisOk => ⟨?_, by omega⟩, fun _ hin => ?_⟩
      · rw [take_length]
        rfl
      · rw [take_length]
        exact hisOk
      · have := hin.2
        omega
    | some k => exact ⟨k, rfl, nofun, fun hours => hinside hours k rfl⟩
  rw [hworld]
  cases hours : isOurs s.world b with
  | true =>
    have hbare := ours_take (H := H) hours (hclean hours) k
    -- the block has been committed before
    have hpublished : (ledger H genesis chain (n + 1)).archive.tree.root =
        (ledger H genesis chain p).archive.tree.root := by
      have hroots : publishedRoots b = getRoots s.world true := of_decide_eq_true hours
      simp only [publishedRoots, getRoots, List.cons.injEq] at hroots
      rw [← hok.archiveRoot hb, hroots.2.2.2.2.2.1, ← root_of_committedPart h.committed,
        ← hclean hours]
      rfl
    have hp : n + 1 = p := hok.archive_inj (n + 1) hlength p h.length hpublished
    refine ⟨p, le_rfl, h.length, ?_, ⟨q, by omega, ?_⟩, fun _ => hp.le⟩
    · rw [committedPart_of_bare hbare, h.committed]
    · rw [archive_tree_bare hbare, hroot]
  | false =>
    rcases other_take (H := H) hours (hk hours) with ⟨hkept, harchive, hbefore⟩ | ⟨hsync, hbare⟩
    · refine ⟨p, le_rfl, h.length, hkept.trans h.committed, ?_, fun hok' => ?_⟩
      · rcases harchive with hold | hcommitted | ⟨hsync, hall⟩
        · exact ⟨q, by omega, hold.trans hroot⟩
        · exact ⟨p, le_max_left _ _, hcommitted.trans (root_of_committedPart h.committed)⟩
        · have hnp : n = p := hok.sync_next h.length h.committed hb hsync
          refine ⟨n + 1, le_max_right _ _, ?_⟩
          rw [hall, hnp, ← commit_sync_root h.committed (hnp ▸ hb)]
          rfl
      · obtain ⟨hrun, hlt⟩ := hisOk hok'
        exact absurd (hbefore hrun) (not_le.2 hlt)
    · have hnp : n = p := hok.sync_next h.length h.committed hb hsync
      have hb' : chain[p]? = some b := hnp ▸ hb
      refine ⟨p + 1, Nat.le_succ p, by omega, ?_, ⟨p + 1, le_max_left _ _, ?_⟩, fun _ => by omega⟩
      · rw [committedPart_of_bare hbare, commit_sync h.committed hb']
      · rw [archive_tree_bare hbare, getRoot_commit, commit_sync_root h.committed hb']

theorem Inv.handle (hstep : StepOk H genesis s (.handle interrupt)) :
    ∃ p' n', Inv H genesis chain (step H chain s (.handle interrupt)) p' n' := by
  rw [step, handleBlock]
  cases hcurrent : s.current with
  | nil => exact ⟨p, n, h⟩
  | cons b rest =>
    obtain ⟨hb, hn, hrest⟩ := h.current_cons hcurrent
    obtain ⟨p', hle, hlength, hcommitted, ⟨q, hq, hroot⟩, hnumber⟩ :=
      h.handled_world hok hcurrent hstep
    have hstored := h.stored
    have hhandled := h.handled
    dsimp only
    cases hresult : handleInterrupted H interrupt s.world b with
    | mk w result =>
      rw [hresult] at hcommitted hroot hnumber
      cases result with
      | ok u =>
        refine ⟨p', n + 1, hcommitted, hlength, ?_, ?_, hrest, h.started, h.downloaded, hn,
          q, hq, hroot⟩
        · exact (hok.number n b hb).le.trans (hnumber rfl)
        · exact (hok.number n b hb).le
      | error msg =>
        -- the rest of the batch is lost
        have hlost : s.blockQueue.flatten =
            (chain.take (s.fromBlock - 1)).drop (n + 1 + rest.length) := by
          rw [← drop_drop, ← hrest, drop_left]
        have hnext : n + 1 + rest.length ≤ s.fromBlock - 1 := by
          have hlen := congrArg List.length hrest
          rw [length_append, length_drop, length_take] at hlen
          have := h.downloaded
          omega
        refine ⟨p', n + 1 + rest.length, hcommitted, hlength, hstored.trans hle, ?_, hlost,
          h.started, h.downloaded, hnext, q, by omega, hroot⟩
        dsimp only
        omega

theorem Inv.step {event : Event} (hstep : StepOk H genesis s event) :
    ∃ p' n', Inv H genesis chain (step H chain s event) p' n' := by
  cases event with
  | download count => exact ⟨p, n, h.download count⟩
  | collect => exact ⟨p, n, h.collect⟩
  | handle interrupt => exact h.handle hok hstep
  | restart => exact ⟨p, s.blockNumber, h.restart⟩
  | report => exact ⟨p, n, h⟩

theorem Inv.reports (hstep : StepOk H genesis s .report) : Reports H genesis chain s := by
  have hsize : s.world.archive.tree.size = (ledger H genesis chain p).archive.tree.size := by
    have hsize := congrArg TreeBase.size (archive_tree_committedPart h.committed)
    exact hsize
  rw [archive_size hok.synced h.length] at hsize
  have hnumber : s.blockNumber = p := by
    have : s.world.archive.tree.size = genesis.archive.tree.size + s.blockNumber := hstep
    omega
  rw [Reports, hnumber]
  exact h.committed

end

/-- **Every run whose steps meet the condition is sound**: in every state the committed trees are
those after a prefix of the chain that has the block of the number in the store, and a number that
is reported is that of the whole prefix. -/
theorem run_synced {Buffer : Type} [DecidableEq Buffer] {H : Hashes Buffer} {genesis : World Buffer}
    {chain : List (L2Block Buffer)} (hok : ChainOk H genesis chain) (events : List Event)
    (hsteps : StepsOk H genesis chain (initial genesis) events) :
    ∀ before after, events = before ++ after →
      Sound H genesis chain (run H chain (initial genesis) before) ∧
        ∀ rest, after = .report :: rest →
          Reports H genesis chain (run H chain (initial genesis) before) := by
  have hrun : ∀ (before after : List Event) (s : State Buffer) (p n : ℕ),
      Inv H genesis chain s p n → StepsOk H genesis chain s (before ++ after) →
        ∃ p' n', Inv H genesis chain (run H chain s before) p' n' ∧
          StepsOk H genesis chain (run H chain s before) after := by
    intro before after
    induction before with
    | nil => exact fun s p n h hsteps => ⟨p, n, h, hsteps⟩
    | cons event before ih =>
      intro s p n h hsteps
      obtain ⟨p', n', h'⟩ := h.step hok hsteps.1
      exact ih _ p' n' h' hsteps.2
  rintro before after rfl
  obtain ⟨p, n, h, hafter⟩ := hrun before after _ 0 0 (Inv.initial hok) hsteps
  refine ⟨⟨p, h.length, h.committed, h.stored⟩, ?_⟩
  rintro rest rfl
  exact h.reports hok hafter.1

end Runs

/-! ### A process that stops between two trees -/

namespace StopInCommit

def hashes : Hashes ℕ :=
  ⟨fun a b => a + b, 0, fun _ => 0, fun _ => 0, fun header => 1 + header.rest⟩

def appendOnly (depth : ℕ) : AppendOnly ℕ depth :=
  ⟨TreeBase.new hashes.hash hashes.zero depth, .new⟩

def genesis : World ℕ :=
  { contractTree := appendOnly 16
    nullifierTree := ⟨StandardIndexedTree.new (nullifierHasher hashes) 20, .new⟩
    noteHashTree := appendOnly 32
    publicDataTree := ⟨StandardIndexedTree.new (publicDataHasher hashes) 40, .new⟩
    l1ToL2MessageTree := appendOnly 16
    archive := appendOnly 16 }

def block : L2Block ℕ :=
  { number := 1
    header := ⟨⟨⟨7, 1⟩, ⟨0, 0⟩, ⟨0, 0⟩, ⟨5, 1⟩, ⟨0, 0⟩⟩, 0⟩
    archiveRoot := 1
    txEffects := [⟨[5], [], [], []⟩]
    l1ToL2Messages := [7] }

theorem getElem_block {k : ℕ} {b : L2Block ℕ} (hb : [block][k]? = some b) : k = 0 ∧ b = block := by
  obtain ⟨hk, rfl⟩ := List.getElem?_eq_some_iff.1 hb
  obtain rfl : k = 0 := Nat.lt_one_iff.1 hk
  exact ⟨rfl, rfl⟩

theorem chainOk : ChainOk hashes genesis [block] where
  genesis_clean := rfl
  number k b hb := by
    obtain ⟨rfl, rfl⟩ := getElem_block hb
    rfl
  synced k b hb := by
    obtain ⟨rfl, rfl⟩ := getElem_block hb
    decide
  roots k b hb := by
    obtain ⟨rfl, rfl⟩ := getElem_block hb
    decide
  messages b hb := by
    rw [mem_singleton] at hb
    subst hb
    exact cons_ne_nil _ _
  archive_inj := by
    have hdecide : ∀ k ≤ 1, ∀ l ≤ 1, (ledger hashes genesis [block] k).archive.tree.root =
        (ledger hashes genesis [block] l).archive.tree.root → k = l := by decide
    exact hdecide

/-- The process stops before the commit of the block, is started again, and handles it. -/
def handled : List Event :=
  [.download 1, .collect, .handle (some 2), .restart, .download 1, .collect, .handle none]

theorem stepsOk : StepsOk hashes genesis [block] (initial genesis) (handled ++ [.report]) := by
  refine ⟨trivial, trivial, fun b rest _ => ⟨fun _ => rfl, fun hours k hk => ?_⟩, trivial, trivial,
    trivial, fun b rest _ => ⟨fun _ => rollback_rollback _, fun _ k hk => nomatch hk⟩, ?_, trivial⟩
  · obtain rfl := Option.some.inj hk
    rintro ⟨hlength, -⟩
    rw [beforeCommit, hours] at hlength
    simp at hlength
  · change (run hashes [block] (initial genesis) handled).world.archive.tree.size =
      genesis.archive.tree.size + (run hashes [block] (initial genesis) handled).blockNumber
    decide +kernel

/-- The process stops after the transaction of the first tree, and is started again. -/
def stopped : List Event := [.download 1, .collect, .handle (some 7), .restart]

end StopInCommit

open StopInCommit in
/-- The block is reported when it is applied, after a first attempt. -/
theorem run_synced_block :
    Reports hashes genesis [block] (run hashes [block] (initial genesis) handled) :=
  (run_synced chainOk (handled ++ [.report]) stepsOk handled [.report] rfl).2 [] rfl

open StopInCommit in
/-- **A process that stops in a commit leaves trees that are not those after a prefix.** -/
theorem not_synced : ¬ ∀ (Buffer : Type) [DecidableEq Buffer] (H : Hashes Buffer)
    (genesis : World Buffer) (chain : List (L2Block Buffer)), ChainOk H genesis chain →
      ∀ events, Sound H genesis chain (run H chain (initial genesis) events) := by
  intro h
  obtain ⟨p, hp, hcommitted, -⟩ := h ℕ hashes genesis [block] chainOk stopped
  have hcontracts := congrArg (fun w : World ℕ => w.contractTree.tree.size) hcommitted
  have hmessages := congrArg (fun w : World ℕ => w.l1ToL2MessageTree.tree.size) hcommitted
  have hno : ∀ p ≤ 1,
      (run hashes [block] (initial genesis) stopped).world.contractTree.tree.size =
          (ledger hashes genesis [block] p).contractTree.tree.size →
        (run hashes [block] (initial genesis) stopped).world.l1ToL2MessageTree.tree.size ≠
          (ledger hashes genesis [block] p).l1ToL2MessageTree.tree.size := by decide
  exact hno p hp hcontracts hmessages

end WorldStateSynchronizer
