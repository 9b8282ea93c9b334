/-
**The synchronizer of the private execution environment.**

The synchronizer fetches blocks and hands them to the note processors of the accounts.  It keeps the
number of the last block it has fetched, and each note processor keeps the number of the last block
it has processed.  New accounts are caught up first, in a list of their own, and then move to the
main list, whose processors are all given the same blocks.
-/

import Mathlib.Data.List.Sort
import Mathlib.Tactic.Ring

open List

namespace NoteSync

/-! ### Blocks -/

def consecutive (start : ℤ) (length : ℕ) : List ℤ :=
  (List.range length).map fun i : ℕ => start + i

section

variable (start : ℤ)
include start

@[simp] theorem length_consecutive (length : ℕ) :
    (consecutive start length).length = length := by
  simp [consecutive]

@[simp] theorem consecutive_zero : consecutive start 0 = [] := rfl

theorem consecutive_succ (length : ℕ) :
    consecutive start (length + 1) = consecutive start length ++ [start + length] := by
  simp [consecutive, range_succ]

theorem consecutive_add (m n : ℕ) :
    consecutive start (m + n) = consecutive start m ++ consecutive (start + m) n := by
  induction n with
  | zero => simp
  | succ n ih =>
    rw [← Nat.add_assoc, consecutive_succ, ih, consecutive_succ, append_assoc]
    congr 3
    push_cast
    ring

theorem getLast?_consecutive (length : ℕ) :
    (consecutive start (length + 1)).getLast? = some (start + length) := by
  simp [consecutive_succ]

theorem dropWhile_consecutive (length : ℕ) (n : ℤ) :
    ∃ k, (consecutive start length).dropWhile (fun number => decide (number ≤ n)) =
      consecutive (max start (n + 1)) k := by
  induction length generalizing start with
  | zero => exact ⟨0, rfl⟩
  | succ length ih =>
    have hcons : consecutive start (length + 1) = start :: consecutive (start + 1) length := by
      rw [Nat.add_comm, consecutive_add]
      simp [consecutive]
    rw [hcons]
    by_cases h : start ≤ n
    · obtain ⟨k, hk⟩ := ih (start + 1)
      refine ⟨k, ?_⟩
      rw [dropWhile_cons_of_pos (by simpa using h), hk]
      congr 1
      omega
    · refine ⟨length + 1, ?_⟩
      rw [dropWhile_cons_of_neg (by simpa using h), max_eq_left (by omega), hcons]

end

/-- `AztecNode.getBlocks`, for a chain of blocks 1 to `latest`.  A query may throw. -/
def getBlocks (latest : Option ℕ) (start limit : ℤ) : Option (List ℤ) :=
  match latest with
  | none => none
  | some latest =>
    if limit < 1 then none
    else
      let start := max start 1
      some (consecutive start (min limit (latest + 1 - start)).toNat)

/-! ### The synchronizer -/

structure NoteProcessor (Key : Type) where
  publicKey : Key
  startingBlock : ℤ
  deriving DecidableEq

/-- `Synchronizer`, with what it uses of the database, and with the process calls that were
completed. -/
structure Synchronizer (Key : Type) where
  initialSyncBlockNumber : ℤ
  noteProcessors : List (NoteProcessor Key)
  noteProcessorsToCatchUp : List (NoteProcessor Key)
  blockNumber : Option ℤ
  synchedBlockNumber : Key → Option ℤ
  processed : List (Key × List ℤ)

variable {Key : Type} [DecidableEq Key]

def Synchronizer.getSynchedBlockNumber (s : Synchronizer Key) : ℤ :=
  s.blockNumber.getD s.initialSyncBlockNumber

def Synchronizer.getSyncedToBlock (s : Synchronizer Key) (np : NoteProcessor Key) : ℤ :=
  (s.synchedBlockNumber np.publicKey).getD (np.startingBlock - 1)

def Synchronizer.all (s : Synchronizer Key) : List (NoteProcessor Key) :=
  s.noteProcessors ++ s.noteProcessorsToCatchUp

def process (s : Synchronizer Key) (np : NoteProcessor Key) (blocks : List ℤ) : Synchronizer Key :=
  match blocks.getLast? with
  | none => s
  | some syncedToBlock =>
    { s with
      synchedBlockNumber := Function.update s.synchedBlockNumber np.publicKey syncedToBlock
      processed := s.processed ++ [(np.publicKey, blocks)] }

def addAccount (s : Synchronizer Key) (publicKey : Key) (startingBlock : ℤ) : Synchronizer Key :=
  if s.all.any fun np => np.publicKey = publicKey then s
  else
    { s with
      noteProcessorsToCatchUp := s.noteProcessorsToCatchUp ++ [⟨publicKey, startingBlock⟩] }

def setHeaderFromBlock (s : Synchronizer Key) (latestBlock : ℤ) : Synchronizer Key :=
  if latestBlock < s.initialSyncBlockNumber then s else { s with blockNumber := some latestBlock }

/-- The loop of `work` over the note processors.  The first process call that throws ends it. -/
def forward (throws : Key → Bool) (blocks : List ℤ) :
    List (NoteProcessor Key) → Synchronizer Key → Synchronizer Key
  | [], s => s
  | np :: nps, s =>
    if throws np.publicKey then s else forward throws blocks nps (process s np blocks)

def work (s : Synchronizer Key) (limit : ℤ) (latest : Option ℕ) (throws : Key → Bool) :
    Synchronizer Key :=
  let start := s.getSynchedBlockNumber + 1
  match getBlocks latest start limit with
  | none => s
  | some blocks =>
    let blocks := blocks.filter fun number => decide (start ≤ number)
    match blocks.getLast? with
    | none => s
    | some latestBlock =>
      -- the header is set before the blocks are processed
      forward throws blocks s.noteProcessors (setHeaderFromBlock s latestBlock)

/-- The loop of `workNoteProcessorCatchUp` over the note processors. -/
def catchUp (throws : Key → Bool) (blocks : List ℤ) (toBlockNumber : ℤ) :
    List (NoteProcessor Key) → Synchronizer Key → Synchronizer Key
  | [], s => s
  | np :: nps, s =>
    let blocks' := blocks.dropWhile fun number => decide (number ≤ s.getSyncedToBlock np)
    if blocks' = [] then s
    else if throws np.publicKey then s
    else
      let s := process s np blocks'
      catchUp throws blocks toBlockNumber nps
        (if s.getSyncedToBlock np = toBlockNumber then
          { s with
            noteProcessors := s.noteProcessors ++ [np]
            noteProcessorsToCatchUp := s.noteProcessorsToCatchUp.filter fun other =>
              !decide (other.publicKey = np.publicKey) }
        else s)

/-- The note processors that have caught up with the main list move to it. -/
def moveCaughtUp (s : Synchronizer Key) : Synchronizer Key :=
  { s with
    noteProcessors := s.noteProcessors ++ s.noteProcessorsToCatchUp.filter fun np =>
      decide (s.getSynchedBlockNumber ≤ s.getSyncedToBlock np)
    noteProcessorsToCatchUp := s.noteProcessorsToCatchUp.filter fun np =>
      !decide (s.getSynchedBlockNumber ≤ s.getSyncedToBlock np) }

def workNoteProcessorCatchUp (s : Synchronizer Key) (limit : ℤ) (latest : Option ℕ)
    (throws : Key → Bool) : Synchronizer Key :=
  let toBlockNumber := s.getSynchedBlockNumber
  let s := moveCaughtUp s
  let catchUpGroup := s.noteProcessorsToCatchUp.insertionSort fun a b =>
    s.getSyncedToBlock a ≤ s.getSyncedToBlock b
  match catchUpGroup with
  | [] => s
  | np :: _ =>
    let start := s.getSyncedToBlock np + 1
    let limit := min limit (toBlockNumber - start + 1)
    if limit < 1 then s
    else
      match getBlocks latest start limit with
      | none => s
      | some [] => s
      | some blocks => catchUp throws blocks toBlockNumber catchUpGroup s

/-- What happens: an account is added, or `sync` makes an iteration, with the blocks that the node
has and the note processors whose process call throws. -/
inductive Op (Key : Type) where
  | addAccount (publicKey : Key) (startingBlock : ℤ)
  | iteration (limit : ℤ) (latest : Option ℕ) (throws : Key → Bool)

def step (s : Synchronizer Key) : Op Key → Synchronizer Key
  | .addAccount publicKey startingBlock => addAccount s publicKey startingBlock
  | .iteration limit latest throws =>
    if s.noteProcessorsToCatchUp.length > 0 then workNoteProcessorCatchUp s limit latest throws
    else work s limit latest throws

def steps (s : Synchronizer Key) (ops : List (Op Key)) : Synchronizer Key := ops.foldl step s

def initialSync (latest : ℕ) (synchedBlockNumber : Key → Option ℤ) : Synchronizer Key where
  initialSyncBlockNumber := latest
  noteProcessors := []
  noteProcessorsToCatchUp := []
  blockNumber := some latest
  synchedBlockNumber := synchedBlockNumber
  processed := []

/-! ### What the accounts have seen -/

def Synchronizer.processedBy (s : Synchronizer Key) (publicKey : Key) : List ℤ :=
  (s.processed.filter fun call => decide (call.1 = publicKey)).flatMap Prod.snd

/-- The blocks that were processed from a synced block number on are the next ones, and the synced
block number is that of the last of them. -/
structure Covered (initial : ℤ) (blocks : List ℤ) (syncedToBlock : ℤ) : Prop where
  consecutive_eq : blocks = consecutive (max (initial + 1) 1) blocks.length
  synced_eq : syncedToBlock = blocks.getLast?.getD initial

/-- **Every account has seen every block from its first unsynced one on, exactly once and in
order**, and is synced to the last block it has processed. -/
def InOrder (synchedBlockNumber : Key → Option ℤ) (s : Synchronizer Key) : Prop :=
  ∀ np ∈ s.all,
    Covered ((synchedBlockNumber np.publicKey).getD (np.startingBlock - 1))
      (s.processedBy np.publicKey) (s.getSyncedToBlock np)

/-- **An iteration goes well**: no account that is to catch up is ahead of the blocks that were
fetched, and no process call of the main list throws. -/
def StepOk (s : Synchronizer Key) : Op Key → Prop
  | .addAccount _ _ => True
  | .iteration _ _ throws =>
    (∀ np ∈ s.noteProcessorsToCatchUp, s.getSyncedToBlock np ≤ s.getSynchedBlockNumber) ∧
      (s.noteProcessorsToCatchUp = [] →
        ∀ np ∈ s.noteProcessors, throws np.publicKey = false)

def RunOk : Synchronizer Key → List (Op Key) → Prop
  | _, [] => True
  | s, op :: ops => StepOk s op ∧ RunOk (step s op) ops

theorem covered_nil (initial : ℤ) : Covered initial [] initial := ⟨rfl, rfl⟩

theorem Covered.append {initial syncedToBlock : ℤ} {blocks : List ℤ}
    (h : Covered initial blocks syncedToBlock) (k : ℕ) :
    Covered initial (blocks ++ consecutive (max (syncedToBlock + 1) 1) (k + 1))
      (max (syncedToBlock + 1) 1 + k) := by
  have hnext : max (syncedToBlock + 1) 1 = max (initial + 1) 1 + blocks.length := by
    rw [h.synced_eq]
    cases hlen : blocks.length with
    | zero => simp [length_eq_zero_iff.1 hlen]
    | succ n =>
      have hblocks := h.consecutive_eq
      rw [hlen] at hblocks
      rw [hblocks, getLast?_consecutive, Option.getD_some]
      omega
  constructor
  · rw [length_append, length_consecutive, consecutive_add _ blocks.length, ← hnext,
      ← h.consecutive_eq]
  · rw [List.getLast?_append, getLast?_consecutive]
    rfl

/-! ### Process calls -/

section Process

variable {s : Synchronizer Key} {np : NoteProcessor Key} {blocks : List ℤ} {last : ℤ}

section

variable (h : blocks.getLast? = some last)
include h

theorem process_eq : process s np blocks = { s with
        synchedBlockNumber := Function.update s.synchedBlockNumber np.publicKey last
        processed := s.processed ++ [(np.publicKey, blocks)] } := by
  simp [process, h]

theorem processedBy_process (publicKey : Key) : (process s np blocks).processedBy publicKey =
      s.processedBy publicKey ++ if np.publicKey = publicKey then blocks else [] := by
  rw [process_eq h]
  by_cases hkey : np.publicKey = publicKey
  · simp [Synchronizer.processedBy, filter_append, hkey]
  · simp [Synchronizer.processedBy, filter_append, hkey]

theorem getSyncedToBlock_process (other : NoteProcessor Key) :
    (process s np blocks).getSyncedToBlock other =
      if other.publicKey = np.publicKey then last else s.getSyncedToBlock other := by
  rw [process_eq h]
  by_cases hkey : other.publicKey = np.publicKey
  · simp [Synchronizer.getSyncedToBlock, hkey]
  · simp [Synchronizer.getSyncedToBlock, hkey, Function.update_of_ne]

end

end Process

/-! ### Later states -/

structure Later (s s' : Synchronizer Key) : Prop where
  processed : s.processed <+: s'.processed
  all : ∀ np ∈ s.all, np ∈ s'.all

section Later

omit [DecidableEq Key]

variable {s s' s'' : Synchronizer Key}

theorem Later.refl (s : Synchronizer Key) : Later s s := ⟨prefix_refl _, fun _ h => h⟩

theorem Later.trans (h : Later s s') (h' : Later s' s'') : Later s s'' :=
  ⟨h.processed.trans h'.processed, fun np hnp => h'.all np (h.all np hnp)⟩

theorem Later.of_perm {main catchUp : List (NoteProcessor Key)} (h : (main ++ catchUp).Perm s.all) :
    Later s { s with noteProcessors := main, noteProcessorsToCatchUp := catchUp } :=
  ⟨prefix_refl _, fun _ hnp => h.symm.subset hnp⟩

end Later

theorem Later.process (s : Synchronizer Key) (np : NoteProcessor Key) (blocks : List ℤ) :
    Later s (process s np blocks) := by
  cases h : blocks.getLast? with
  | none => simpa only [NoteSync.process, h] using Later.refl s
  | some last =>
    rw [process_eq h]
    exact ⟨prefix_append _ _, fun _ hnp => hnp⟩

theorem Later.forward (throws : Key → Bool) (blocks : List ℤ) (nps : List (NoteProcessor Key))
    (s : Synchronizer Key) : Later s (forward throws blocks nps s) := by
  induction nps generalizing s with
  | nil => exact Later.refl s
  | cons np nps ih =>
    unfold NoteSync.forward
    split
    · exact Later.refl s
    · exact (Later.process s np blocks).trans (ih _)

theorem Later.addAccount (s : Synchronizer Key) (publicKey : Key) (startingBlock : ℤ) :
    Later s (addAccount s publicKey startingBlock) := by
  unfold NoteSync.addAccount
  split
  · exact Later.refl s
  · refine ⟨prefix_refl _, fun np hnp => ?_⟩
    rcases mem_append.1 hnp with hnp | hnp
    · exact mem_append_left _ hnp
    · exact mem_append_right _ (mem_append_left _ hnp)

theorem Later.length_le {s s' : Synchronizer Key} (h : Later s s') (publicKey : Key) :
    (s.processedBy publicKey).length ≤ (s'.processedBy publicKey).length := by
  obtain ⟨calls, hcalls⟩ := h.processed
  simp [Synchronizer.processedBy, ← hcalls, filter_append]

theorem Covered.le {initial syncedToBlock syncedToBlock' : ℤ} {blocks blocks' : List ℤ}
    (h : Covered initial blocks syncedToBlock) (h' : Covered initial blocks' syncedToBlock')
    (hlen : blocks.length ≤ blocks'.length) : syncedToBlock ≤ syncedToBlock' := by
  have hsynced : ∀ {blocks : List ℤ} {syncedToBlock : ℤ}, Covered initial blocks syncedToBlock →
      syncedToBlock =
        if blocks.length = 0 then initial else max (initial + 1) 1 + blocks.length - 1 := by
    intro blocks syncedToBlock h
    rw [h.synced_eq, h.consecutive_eq]
    cases blocks.length with
    | zero => rfl
    | succ n =>
      rw [getLast?_consecutive, Option.getD_some, length_consecutive, if_neg (by omega)]
      push_cast
      ring
  rw [hsynced h, hsynced h']
  split <;> split <;> omega

/-! ### The invariant -/

/-- The accounts are told apart by their keys, have seen the blocks in order, and only accounts have
seen any. -/
structure Core (synchedBlockNumber : Key → Option ℤ) (s : Synchronizer Key) : Prop where
  inOrder : InOrder synchedBlockNumber s
  nodup : (s.all.map NoteProcessor.publicKey).Nodup
  initial_nonneg : 0 ≤ s.initialSyncBlockNumber
  header : ∃ number, s.blockNumber = some number ∧ s.initialSyncBlockNumber ≤ number
  others : ∀ publicKey, publicKey ∉ s.all.map NoteProcessor.publicKey →
    s.synchedBlockNumber publicKey = synchedBlockNumber publicKey ∧ s.processedBy publicKey = []

/-- The accounts of the main list have seen all blocks that were fetched. -/
structure Invariant (synchedBlockNumber : Key → Option ℤ) (s : Synchronizer Key) : Prop
    extends Core synchedBlockNumber s where
  main_eq : ∀ np ∈ s.noteProcessors, s.getSyncedToBlock np = s.getSynchedBlockNumber

section Steps

variable {synchedBlockNumber : Key → Option ℤ} {s : Synchronizer Key}

theorem Invariant.start (latest : ℕ) (synchedBlockNumber : Key → Option ℤ) :
    Invariant synchedBlockNumber (initialSync latest synchedBlockNumber) where
  inOrder := nofun
  nodup := nodup_nil
  initial_nonneg := Int.natCast_nonneg latest
  header := ⟨latest, rfl, le_rfl⟩
  others := fun _ _ => ⟨rfl, rfl⟩
  main_eq := nofun

section

variable (h : Core synchedBlockNumber s)
include h

theorem Core.eq_of_publicKey {np other : NoteProcessor Key} (hnp : np ∈ s.all)
    (hother : other ∈ s.all) (hkey : other.publicKey = np.publicKey) : other = np :=
  inj_on_of_nodup_map h.nodup hother hnp hkey

theorem Core.process {np : NoteProcessor Key} (hnp : np ∈ s.all) (k : ℕ) : Core synchedBlockNumber
      (process s np (consecutive (max (s.getSyncedToBlock np + 1) 1) (k + 1))) := by
  have hlast := getLast?_consecutive (max (s.getSyncedToBlock np + 1) 1) k
  have hall : (NoteSync.process s np
      (consecutive (max (s.getSyncedToBlock np + 1) 1) (k + 1))).all = s.all := by
    rw [process_eq hlast]
    rfl
  refine ⟨fun other hother => ?_, ?_, ?_, ?_, fun publicKey hkey => ?_⟩
  · rw [hall] at hother
    rw [processedBy_process hlast, getSyncedToBlock_process hlast]
    by_cases hkey : other.publicKey = np.publicKey
    · obtain rfl := h.eq_of_publicKey hnp hother hkey
      rw [if_pos rfl, if_pos rfl]
      exact (h.inOrder other hother).append k
    · rw [if_neg (Ne.symm hkey), if_neg hkey, append_nil]
      exact h.inOrder other hother
  · rw [hall]
    exact h.nodup
  · rw [process_eq hlast]
    exact h.initial_nonneg
  · rw [process_eq hlast]
    exact h.header
  · rw [hall] at hkey
    have hne : np.publicKey ≠ publicKey := fun heq => hkey (heq ▸ mem_map_of_mem hnp)
    rw [processedBy_process hlast, if_neg hne, append_nil, process_eq hlast]
    refine ⟨?_, (h.others publicKey hkey).2⟩
    exact (Function.update_of_ne (Ne.symm hne) ..).trans (h.others publicKey hkey).1

theorem Core.of_perm (main catchUp : List (NoteProcessor Key))
    (hperm : (main ++ catchUp).Perm s.all) : Core synchedBlockNumber
      { s with noteProcessors := main, noteProcessorsToCatchUp := catchUp } where
  inOrder := fun np hnp => h.inOrder np (hperm.subset hnp)
  nodup := (hperm.map _).nodup_iff.2 h.nodup
  initial_nonneg := h.initial_nonneg
  header := h.header
  others := fun publicKey hkey =>
    h.others publicKey fun hmem => hkey ((hperm.map _).symm.subset hmem)

end

theorem Invariant.addAccount (h : Invariant synchedBlockNumber s) (publicKey : Key)
    (startingBlock : ℤ) : Invariant synchedBlockNumber (addAccount s publicKey startingBlock) := by
  unfold NoteSync.addAccount
  split
  · exact h
  · next hnew =>
      have hkey : publicKey ∉ s.all.map NoteProcessor.publicKey := by
        intro hmem
        obtain ⟨np, hnp, rfl⟩ := mem_map.1 hmem
        exact hnew (any_eq_true.2 ⟨np, hnp, decide_eq_true rfl⟩)
      obtain ⟨hsynched, hprocessed⟩ := h.others publicKey hkey
      have hall : ({ s with
          noteProcessorsToCatchUp := s.noteProcessorsToCatchUp ++ [⟨publicKey, startingBlock⟩] } :
            Synchronizer Key).all = s.all ++ [⟨publicKey, startingBlock⟩] :=
        (append_assoc ..).symm
      refine
        { inOrder := fun np hnp => ?_
          nodup := ?_
          initial_nonneg := h.initial_nonneg
          header := h.header
          others := fun other hother => ?_
          main_eq := h.main_eq }
      · rw [hall] at hnp
        rcases mem_append.1 hnp with hnp | hnp
        · exact h.inOrder np hnp
        · obtain rfl := mem_singleton.1 hnp
          change Covered _ (s.processedBy publicKey)
            ((s.synchedBlockNumber publicKey).getD (startingBlock - 1))
          rw [hprocessed, hsynched]
          exact covered_nil _
      · rw [hall, map_append, nodup_append]
        refine ⟨h.nodup, nodup_singleton _, fun other hother np hnp heq => hkey ?_⟩
        rw [heq, mem_singleton.1 hnp] at hother
        exact hother
      · rw [hall, map_append] at hother
        exact h.others other fun hmem => hother (mem_append_left _ hmem)

/-! ### The main list -/

variable {throws : Key → Bool} {nps : List (NoteProcessor Key)} {ops : List (Op Key)}

theorem forward_core {start : ℤ} {k : ℕ} (h : Core synchedBlockNumber s)
    (hnps : ∀ np ∈ nps, np ∈ s.all) (hnodup : (nps.map NoteProcessor.publicKey).Nodup)
    (hstart : ∀ np ∈ nps, max (s.getSyncedToBlock np + 1) 1 = start)
    (hthrows : ∀ np ∈ nps, throws np.publicKey = false) :
    Core synchedBlockNumber (forward throws (consecutive start (k + 1)) nps s) ∧
      (forward throws (consecutive start (k + 1)) nps s).noteProcessors = s.noteProcessors ∧
      (forward throws (consecutive start (k + 1)) nps s).blockNumber = s.blockNumber ∧
      ∀ np, (forward throws (consecutive start (k + 1)) nps s).getSyncedToBlock np =
        if np.publicKey ∈ nps.map NoteProcessor.publicKey then start + k
        else s.getSyncedToBlock np := by
  induction nps generalizing s with
  | nil => exact ⟨h, rfl, rfl, fun np => by simp [forward]⟩
  | cons np nps ih =>
    have hlast := getLast?_consecutive start k
    rw [map_cons, nodup_cons] at hnodup
    have hprocess := h.process (hnps np mem_cons_self) k
    rw [hstart np mem_cons_self] at hprocess
    have hother : ∀ other ∈ nps, other.publicKey ≠ np.publicKey := fun other hother heq =>
      hnodup.1 (heq ▸ mem_map_of_mem hother)
    have hall : (process s np (consecutive start (k + 1))).all = s.all := by
      rw [process_eq hlast]
      rfl
    obtain ⟨hcore, hmain, hnumber, hsynced⟩ := ih hprocess
      (fun other hmem => hall ▸ hnps other (mem_cons_of_mem np hmem)) hnodup.2
      (fun other hmem => by
        rw [getSyncedToBlock_process hlast, if_neg (hother other hmem)]
        exact hstart other (mem_cons_of_mem np hmem))
      (fun other hmem => hthrows other (mem_cons_of_mem np hmem))
    have hturn : forward throws (consecutive start (k + 1)) (np :: nps) s =
        forward throws (consecutive start (k + 1)) nps
          (process s np (consecutive start (k + 1))) := by
      rw [forward, hthrows np mem_cons_self]
      rfl
    rw [hturn]
    refine ⟨hcore, hmain.trans (by rw [process_eq hlast]),
      hnumber.trans (by rw [process_eq hlast]), fun other => ?_⟩
    rw [hsynced, getSyncedToBlock_process hlast, map_cons]
    by_cases hkey : other.publicKey = np.publicKey
    · simp [hkey]
    · simp [hkey]

theorem getBlocks_eq {latest : Option ℕ} {start limit : ℤ} {blocks : List ℤ}
    (h : getBlocks latest start limit = some blocks) :
    ∃ k, blocks = consecutive (max start 1) k := by
  unfold getBlocks at h
  cases latest with
  | none => cases h
  | some latest =>
    simp only at h
    split at h
    · cases h
    · exact ⟨_, (Option.some.inj h).symm⟩

section

variable (h : Invariant synchedBlockNumber s)
include h

theorem Invariant.getSynchedBlockNumber_nonneg : 0 ≤ s.getSynchedBlockNumber := by
  obtain ⟨number, hnumber, hle⟩ := h.header
  have := h.initial_nonneg
  rw [Synchronizer.getSynchedBlockNumber, hnumber, Option.getD_some]
  omega

theorem Invariant.work_cases (limit : ℤ) (latest : Option ℕ) (throws : Key → Bool) :
    work s limit latest throws = s ∨ ∃ k : ℕ, work s limit latest throws =
        forward throws (consecutive (s.getSynchedBlockNumber + 1) (k + 1)) s.noteProcessors
          { s with blockNumber := some (s.getSynchedBlockNumber + 1 + k) } := by
  have hnonneg := h.getSynchedBlockNumber_nonneg
  obtain ⟨number, hnumber, hle⟩ := h.header
  have hpointer : s.getSynchedBlockNumber = number := by
    rw [Synchronizer.getSynchedBlockNumber, hnumber, Option.getD_some]
  cases hblocks : getBlocks latest (s.getSynchedBlockNumber + 1) limit with
  | none => exact Or.inl (by simp only [NoteSync.work, hblocks])
  | some blocks =>
    obtain ⟨k, hk⟩ := getBlocks_eq hblocks
    rw [max_eq_left (by omega)] at hk
    have hfilter : blocks.filter (fun number =>
        decide (s.getSynchedBlockNumber + 1 ≤ number)) = blocks := by
      refine filter_eq_self.2 fun number hmem => ?_
      rw [hk] at hmem
      obtain ⟨i, -, rfl⟩ := mem_map.1 hmem
      exact decide_eq_true (by omega)
    cases k with
    | zero =>
      rw [consecutive_zero] at hk
      subst hk
      exact Or.inl (by simp only [NoteSync.work, hblocks, filter_nil, List.getLast?_nil])
    | succ k =>
      refine Or.inr ⟨k, ?_⟩
      have hlast : blocks.getLast? = some (s.getSynchedBlockNumber + 1 + k) := by
        rw [hk, getLast?_consecutive]
      have hheader : setHeaderFromBlock s (s.getSynchedBlockNumber + 1 + k) =
          { s with blockNumber := some (s.getSynchedBlockNumber + 1 + k) } :=
        if_neg (by omega)
      simp only [NoteSync.work, hblocks, hfilter, hlast, hheader]
      rw [hk]

theorem Invariant.work (limit : ℤ) (latest : Option ℕ)
    (hthrows : ∀ np ∈ s.noteProcessors, throws np.publicKey = false) :
    Invariant synchedBlockNumber (work s limit latest throws) := by
  have hnonneg := h.getSynchedBlockNumber_nonneg
  obtain ⟨number, hnumber, hle⟩ := h.header
  rcases h.work_cases limit latest throws with hwork | ⟨k, hwork⟩
  · exact hwork.symm ▸ h
  · have hle' : s.initialSyncBlockNumber ≤ s.getSynchedBlockNumber + 1 + k := by
      rw [Synchronizer.getSynchedBlockNumber, hnumber, Option.getD_some]
      omega
    have hcore : Core synchedBlockNumber
        { s with blockNumber := some (s.getSynchedBlockNumber + 1 + k) } :=
      { inOrder := h.inOrder
        nodup := h.nodup
        initial_nonneg := h.initial_nonneg
        header := ⟨_, rfl, hle'⟩
        others := h.others }
    have hnodup : (s.noteProcessors.map NoteProcessor.publicKey).Nodup := by
      have := h.nodup
      rw [Synchronizer.all, map_append] at this
      exact this.of_append_left
    obtain ⟨hcore', hmain, hnumber', hsynced⟩ := forward_core hcore
      (fun np hnp => mem_append_left _ hnp) hnodup
      (fun np hnp => by
        change max (s.getSyncedToBlock np + 1) 1 = _
        rw [h.main_eq np hnp, max_eq_left (by omega)]) hthrows
    rw [hwork]
    refine { hcore' with main_eq := fun np hnp => ?_ }
    rw [hmain] at hnp
    rw [hsynced, if_pos (mem_map_of_mem hnp)]
    exact (congrArg (Option.getD · _) hnumber').symm

end

/-! ### The catch-up list -/

omit [DecidableEq Key] in
theorem moveCaughtUp_perm (s : Synchronizer Key) :
    ((moveCaughtUp s).noteProcessors ++ (moveCaughtUp s).noteProcessorsToCatchUp).Perm s.all := by
  rw [moveCaughtUp, append_assoc]
  exact (filter_append_perm _ _).append_left _

theorem Invariant.moveCaughtUp (h : Invariant synchedBlockNumber s)
    (hahead : ∀ np ∈ s.noteProcessorsToCatchUp, s.getSyncedToBlock np ≤ s.getSynchedBlockNumber) :
    Invariant synchedBlockNumber (moveCaughtUp s) := by
  refine { h.toCore.of_perm _ _ (moveCaughtUp_perm s) with main_eq := fun np hnp => ?_ }
  rcases mem_append.1 hnp with hnp | hnp
  · exact h.main_eq np hnp
  · obtain ⟨hmem, hle⟩ := mem_filter.1 hnp
    exact le_antisymm (hahead np hmem) (of_decide_eq_true hle)

variable {np : NoteProcessor Key}

theorem Invariant.process (h : Invariant synchedBlockNumber s) (hnp : np ∈ s.noteProcessorsToCatchUp) (k : ℕ) : Invariant synchedBlockNumber
      (process s np (consecutive (max (s.getSyncedToBlock np + 1) 1) (k + 1))) := by
  have hlast := getLast?_consecutive (max (s.getSyncedToBlock np + 1) 1) k
  refine { h.toCore.process (mem_append_right _ hnp) k with main_eq := fun other hother => ?_ }
  have hmem : other ∈ s.noteProcessors := by
    rw [process_eq hlast] at hother
    exact hother
  have hne : other.publicKey ≠ np.publicKey := by
    have hnodup := h.nodup
    rw [Synchronizer.all, map_append, nodup_append] at hnodup
    exact hnodup.2.2 _ (mem_map_of_mem hmem) _ (mem_map_of_mem hnp)
  rw [getSyncedToBlock_process hlast, if_neg hne, h.main_eq other hmem, process_eq hlast]
  rfl

theorem cons_filter_perm (hnodup : (nps.map NoteProcessor.publicKey).Nodup) (hnp : np ∈ nps) :
    (np :: nps.filter fun other => !decide (other.publicKey = np.publicKey)).Perm nps := by
  obtain ⟨before, after, rfl⟩ := append_of_mem hnp
  rw [map_append, map_cons, nodup_append, nodup_cons] at hnodup
  obtain ⟨-, ⟨hafter, -⟩, hbefore⟩ := hnodup
  have hkeep : ∀ other ∈ before ++ after, (!decide (other.publicKey = np.publicKey)) = true := by
    intro other hother
    rcases mem_append.1 hother with hmem | hmem
    · simpa using hbefore _ (mem_map_of_mem hmem) _ mem_cons_self
    · have hne : other.publicKey ≠ np.publicKey := fun heq =>
        hafter (heq ▸ mem_map_of_mem hmem)
      simpa using hne
  rw [filter_append, filter_cons_of_neg (by simp), ← filter_append,
    filter_eq_self.2 hkeep]
  exact perm_middle.symm

theorem Invariant.move (h : Invariant synchedBlockNumber s) (hnp : np ∈ s.noteProcessorsToCatchUp)
    (hcaught : s.getSyncedToBlock np = s.getSynchedBlockNumber) {s' : Synchronizer Key}
    (hs' : s' = { s with
      noteProcessors := s.noteProcessors ++ [np]
      noteProcessorsToCatchUp := s.noteProcessorsToCatchUp.filter fun other =>
        !decide (other.publicKey = np.publicKey) }) :
    Invariant synchedBlockNumber s' ∧ Later s s' := by
  have hnodup : (s.noteProcessorsToCatchUp.map NoteProcessor.publicKey).Nodup := by
    have := h.nodup
    rw [Synchronizer.all, map_append] at this
    exact this.of_append_right
  have hperm : ((s.noteProcessors ++ [np]) ++ s.noteProcessorsToCatchUp.filter fun other =>
      !decide (other.publicKey = np.publicKey)).Perm s.all := by
    rw [append_assoc]
    exact (cons_filter_perm hnodup hnp).append_left _
  subst hs'
  refine ⟨{ h.toCore.of_perm _ _ hperm with main_eq := fun other hother => ?_ },
    Later.of_perm hperm⟩
  rcases mem_append.1 hother with hother | hother
  · exact h.main_eq other hother
  · rw [mem_singleton.1 hother]
    exact hcaught

theorem Invariant.catchUp {start : ℤ} {n : ℕ} (h : Invariant synchedBlockNumber s)
    (hnps : ∀ np ∈ nps, np ∈ s.noteProcessorsToCatchUp)
    (hnodup : (nps.map NoteProcessor.publicKey).Nodup)
    (hstart : ∀ np ∈ nps, start ≤ s.getSyncedToBlock np + 1) : Invariant synchedBlockNumber
        (catchUp throws (consecutive (max start 1) n) s.getSynchedBlockNumber nps s) ∧
      Later s (catchUp throws (consecutive (max start 1) n) s.getSynchedBlockNumber nps s) := by
  induction nps generalizing s with
  | nil => exact ⟨h, Later.refl s⟩
  | cons np nps ih =>
    rw [map_cons, nodup_cons] at hnodup
    have hmem := hnps np mem_cons_self
    have hother : ∀ other ∈ nps, other.publicKey ≠ np.publicKey := fun other hother heq =>
      hnodup.1 (heq ▸ mem_map_of_mem hother)
    obtain ⟨k, hk⟩ := dropWhile_consecutive (max start 1) n (s.getSyncedToBlock np)
    have hfirst : max (max start 1) (s.getSyncedToBlock np + 1) =
        max (s.getSyncedToBlock np + 1) 1 := by
      have := hstart np mem_cons_self
      omega
    rw [hfirst] at hk
    simp only [NoteSync.catchUp, hk]
    cases k with
    | zero => simpa using ⟨h, Later.refl s⟩
    | succ k =>
      have hne : consecutive (max (s.getSyncedToBlock np + 1) 1) (k + 1) ≠ [] := fun hnil => by
        simpa using congrArg List.length hnil
      rw [if_neg hne]
      split
      · exact ⟨h, Later.refl s⟩
      · have hprocess := h.process hmem k
        have hlast := getLast?_consecutive (max (s.getSyncedToBlock np + 1) 1) k
        have hsynced := @getSyncedToBlock_process Key _ s np _ _ hlast
        have hlater := Later.process s np
          (consecutive (max (s.getSyncedToBlock np + 1) 1) (k + 1))
        rw [process_eq hlast] at hprocess hsynced hlater ⊢
        have hstart' : ∀ other ∈ nps, start ≤ Synchronizer.getSyncedToBlock _ other + 1 :=
          fun other hmem' => (hstart other (mem_cons_of_mem np hmem')).trans_eq
            (congrArg (· + 1) ((hsynced other).trans (if_neg (hother other hmem'))).symm)
        split
        · next hcaught =>
            obtain ⟨hmoved, hlater'⟩ := hprocess.move hmem hcaught rfl
            obtain ⟨hrest, hlater''⟩ := ih hmoved (fun other hmem' => mem_filter.2
                ⟨hnps other (mem_cons_of_mem np hmem'), by simpa using hother other hmem'⟩)
              hnodup.2 hstart'
            exact ⟨hrest, hlater.trans (hlater'.trans hlater'')⟩
        · obtain ⟨hrest, hlater'⟩ := ih hprocess
            (fun other hmem' => hnps other (mem_cons_of_mem np hmem')) hnodup.2 hstart'
          exact ⟨hrest, hlater.trans hlater'⟩

section

variable (h : Invariant synchedBlockNumber s)
include h

theorem Invariant.workNoteProcessorCatchUp (limit : ℤ)
    (latest : Option ℕ) (throws : Key → Bool)
    (hahead : ∀ np ∈ s.noteProcessorsToCatchUp, s.getSyncedToBlock np ≤ s.getSynchedBlockNumber) :
    Invariant synchedBlockNumber (workNoteProcessorCatchUp s limit latest throws) ∧
      Later s (workNoteProcessorCatchUp s limit latest throws) := by
  have hmoved := h.moveCaughtUp hahead
  have hlater : Later s (NoteSync.moveCaughtUp s) := Later.of_perm (moveCaughtUp_perm s)
  have hpointer : (NoteSync.moveCaughtUp s).getSynchedBlockNumber = s.getSynchedBlockNumber := rfl
  simp only [NoteSync.workNoteProcessorCatchUp, ← hpointer]
  generalize NoteSync.moveCaughtUp s = s at hmoved hlater ⊢
  have hperm := perm_insertionSort
    (fun a b => s.getSyncedToBlock a ≤ s.getSyncedToBlock b) s.noteProcessorsToCatchUp
  have hsorted := pairwise_insertionSort
    (fun a b => s.getSyncedToBlock a ≤ s.getSyncedToBlock b) s.noteProcessorsToCatchUp
  cases hgroup : s.noteProcessorsToCatchUp.insertionSort fun a b =>
      s.getSyncedToBlock a ≤ s.getSyncedToBlock b with
  | nil => exact ⟨hmoved, hlater⟩
  | cons np nps =>
    rw [hgroup] at hperm hsorted
    simp only
    split
    · exact ⟨hmoved, hlater⟩
    · split
      · exact ⟨hmoved, hlater⟩
      · exact ⟨hmoved, hlater⟩
      · next blocks _ hblocks =>
          obtain ⟨n, hn⟩ := getBlocks_eq hblocks
          rw [hn]
          have hnodup : ((np :: nps).map NoteProcessor.publicKey).Nodup := by
            have := hmoved.nodup
            rw [Synchronizer.all, map_append] at this
            exact (hperm.map _).nodup_iff.2 this.of_append_right
          have hfirst : ∀ other ∈ np :: nps,
              s.getSyncedToBlock np + 1 ≤ s.getSyncedToBlock other + 1 := by
            intro other hother
            rcases mem_cons.1 hother with rfl | hother
            · exact le_rfl
            · exact Int.add_le_add_right ((pairwise_cons.1 hsorted).1 other hother) 1
          exact (hmoved.catchUp (fun other hother => hperm.subset hother) hnodup hfirst).imp
            id hlater.trans

theorem Invariant.step {op : Op Key} (hok : StepOk s op) :
    Invariant synchedBlockNumber (step s op) ∧ Later s (step s op) := by
  cases op with
  | addAccount publicKey startingBlock =>
    exact ⟨h.addAccount publicKey startingBlock, Later.addAccount s publicKey startingBlock⟩
  | iteration limit latest throws =>
    by_cases hcatchUp : s.noteProcessorsToCatchUp.length > 0
    · rw [NoteSync.step, if_pos hcatchUp]
      exact h.workNoteProcessorCatchUp limit latest throws hok.1
    · rw [NoteSync.step, if_neg hcatchUp]
      refine ⟨h.work limit latest (hok.2 (length_eq_zero_iff.1 (by omega))), ?_⟩
      rcases h.work_cases limit latest throws with hwork | ⟨k, hwork⟩
      · exact hwork.symm ▸ Later.refl s
      · rw [hwork]
        have hheader : Later s
            { s with blockNumber := some (s.getSynchedBlockNumber + 1 + k) } :=
          ⟨prefix_refl _, fun _ hnp => hnp⟩
        exact hheader.trans (Later.forward ..)

theorem Invariant.steps (hok : RunOk s ops) :
    Invariant synchedBlockNumber (steps s ops) ∧ Later s (steps s ops) := by
  induction ops generalizing s with
  | nil => exact ⟨h, Later.refl s⟩
  | cons op ops ih =>
    obtain ⟨hstep, hlater⟩ := h.step hok.1
    obtain ⟨hsteps, hlater'⟩ := ih hstep hok.2
    exact ⟨hsteps, hlater.trans hlater'⟩

end

theorem runOk_append {later : List (Op Key)} :
    RunOk s (ops ++ later) ↔ RunOk s ops ∧ RunOk (steps s ops) later := by
  induction ops generalizing s with
  | nil => simp [RunOk, steps]
  | cons op ops ih => simp [RunOk, ih, steps, and_assoc]

end Steps

/-- **Every account sees every block once, in order**, and its synced block number never
decreases, in a run whose steps meet the condition. -/
theorem run_inOrder (latest : ℕ) (synchedBlockNumber : Key → Option ℤ) (ops later : List (Op Key))
    (hok : RunOk (initialSync latest synchedBlockNumber) (ops ++ later)) :
    InOrder synchedBlockNumber (steps (initialSync latest synchedBlockNumber) ops) ∧
      ∀ np ∈ (steps (initialSync latest synchedBlockNumber) ops).all,
        (steps (initialSync latest synchedBlockNumber) ops).getSyncedToBlock np ≤
          (steps (initialSync latest synchedBlockNumber) (ops ++ later)).getSyncedToBlock np := by
  obtain ⟨hops, hlater⟩ := runOk_append.1 hok
  obtain ⟨hinv, -⟩ := (Invariant.start latest synchedBlockNumber).steps hops
  obtain ⟨hinv', hgrow⟩ := hinv.steps hlater
  have happend : steps (initialSync latest synchedBlockNumber) (ops ++ later) =
      steps (steps (initialSync latest synchedBlockNumber) ops) later := foldl_append
  rw [← happend] at hinv' hgrow
  exact ⟨hinv.inOrder, fun np hnp =>
    (hinv.inOrder np hnp).le (hinv'.inOrder np (hgrow.all np hnp)) (hgrow.length_le _)⟩

/-! ### One account -/

namespace OneAccount

instance (s : Synchronizer ℕ) (op : Op ℕ) : Decidable (StepOk s op) := by
  cases op with
  | addAccount publicKey startingBlock => exact isTrue trivial
  | iteration limit latest throws => unfold StepOk; exact inferInstance

instance (s : Synchronizer ℕ) (ops : List (Op ℕ)) : Decidable (RunOk s ops) := by
  induction ops generalizing s with
  | nil => exact isTrue trivial
  | cons op ops ih =>
    haveI := ih (step s op)
    exact inferInstanceAs (Decidable (_ ∧ _))

/-- An account that is caught up with block 2, and then sees block 3. -/
def catchesUp : List (Op ℕ) :=
  [.addAccount 7 1, .iteration 5 (some 2) fun _ => false, .iteration 5 (some 3) fun _ => false]

/-- An account whose process call throws for block 1, before it sees block 2. -/
def throwsOnce : List (Op ℕ) :=
  [.addAccount 7 1, .iteration 1 (some 0) fun _ => false, .iteration 1 (some 1) fun _ => true,
    .iteration 1 (some 2) fun _ => false]

end OneAccount

open OneAccount in
/-- An account that catches up, at its first and at its last step. -/
theorem run_inOrder_catchesUp :
    InOrder (fun _ => none) (steps (initialSync 2 fun _ => none) (catchesUp.take 2)) ∧
      ∀ np ∈ (steps (initialSync 2 fun _ => none) (catchesUp.take 2)).all,
        (steps (initialSync 2 fun _ => none) (catchesUp.take 2)).getSyncedToBlock np ≤
          (steps (initialSync 2 fun _ => none)
            (catchesUp.take 2 ++ catchesUp.drop 2)).getSyncedToBlock np :=
  run_inOrder 2 (fun _ => none) (catchesUp.take 2) (catchesUp.drop 2) (by decide)

open OneAccount in
/-- **A process call that throws leaves a gap**: the block is not fetched again. -/
theorem not_run_inOrder : ¬ ∀ (latest : ℕ) (synchedBlockNumber : ℕ → Option ℤ) (ops : List (Op ℕ)),
      InOrder synchedBlockNumber (steps (initialSync latest synchedBlockNumber) ops) := by
  intro h
  have hgap := (h 0 (fun _ => none) throwsOnce ⟨7, 1⟩ (by decide)).consecutive_eq
  exact absurd hgap (by decide)

end NoteSync
