/-
**Reading a buffer.**

`BufferReader` walks a buffer with an index.  A reader reads an encoding when, wherever the bytes
stand in a buffer, it returns the value and moves the index behind them; readers that are run one
after the other read the encodings one after the other.
-/

import Aztec.TxsHash

open BlockBody TxsHash List
open BigEndian (length_write write)

/-! ### The reader -/

/-- A step of `BufferReader`, over the buffer and the index. -/
abbrev BufferReader (α : Type) := ReaderT Bytes (StateT ℕ Option) α

/-- `numToUInt32BE`, which throws on larger numbers. -/
def numToUInt32BE (n : ℕ) : Option Bytes :=
  if n < 2 ^ 32 then some (BigEndian.write 4 n) else none

def prefixBufferWithLength (buf : Bytes) : Option Bytes :=
  (numToUInt32BE buf.length).map (· ++ buf)

namespace BufferReader

variable {α β : Type}

def readNumber : BufferReader ℕ := fun buffer index =>
  (read4 buffer index).map fun n => (n, index + 4)

/-- `readBytes`; what is behind the end of the buffer is missing from the bytes. -/
def readBytes (n : ℕ) : BufferReader Bytes := fun buffer index =>
  some ((buffer.drop index).take n, index + n)

def readBuffer : BufferReader Bytes := do
  let size ← readNumber
  readBytes size

def readArray (item : BufferReader α) : ℕ → BufferReader (List α)
  | 0 => pure []
  | size + 1 => do
    let a ← item
    let rest ← readArray item size
    pure (a :: rest)

def readVector (item : BufferReader α) : BufferReader (List α) := do
  let size ← readNumber
  readArray item size

/-- The loop of `readBufferArray`.  A turn moves the index by at least four bytes, which bounds the
number of turns. -/
def readBuffers (stop : ℕ) : ℕ → BufferReader (List Bytes)
  | 0 => pure []
  | turns + 1 => fun buffer index =>
    if index < stop then
      (do
        let item ← readBuffer
        let result ← readBuffers stop turns
        pure (item :: result) : BufferReader (List Bytes)) buffer index
    else some ([], index)

def readBufferArray (size : Option ℕ) : BufferReader (List Bytes) := fun buffer index => do
  let stop := match size with
    | some size => index + size
    | none => buffer.length
  let (result, index') ← readBuffers stop (stop - index) buffer index
  if index' ≠ stop then none else some (result, index')

def ofOption (value : Option α) : BufferReader α := fun _ index => value.map fun a => (a, index)

/-! ### Encodings -/

/-- The reader reads the bytes to the value, wherever they stand. -/
def Reads (reader : BufferReader α) (bytes : Bytes) (value : α) : Prop :=
  ∀ buffer index, Stands buffer index bytes →
    reader buffer index = some (value, index + bytes.length)

section Lemmas

variable {reader : BufferReader α} {next : α → BufferReader β} {bytes bytes' : Bytes}
  {a : α} {b : β}

variable {buffer : Bytes} {n : ℕ} {encode : α → Bytes} {l : List Bytes}

theorem bind_eq_of_eq_some {index index' : ℕ} (h : reader buffer index = some (a, index')) :
    (reader >>= next) buffer index = next a buffer index' := by
  change (reader buffer index).bind (fun r => next r.1 buffer r.2) = _
  rw [h, Option.bind_some]

theorem Reads.bind (h : Reads reader bytes a) (hnext : Reads (next a) bytes' b) :
    Reads (reader >>= next) (bytes ++ bytes') b := by
  intro buffer index hstands
  rw [bind_eq_of_eq_some (h buffer index hstands.left), hnext _ _ hstands.right,
    length_append, Nat.add_assoc]

theorem Reads.bind_append {first second : Bytes} (h : Reads reader (first ++ second) a)
    (hnext : Reads (next a) bytes' b) :
    Reads (reader >>= next) (first ++ (second ++ bytes')) b := by
  rw [← append_assoc]
  exact h.bind hnext

theorem Reads.pure (a : α) : Reads (Pure.pure a) [] a := fun _ _ _ => rfl

theorem reads_ofOption {value : Option α} (h : value = some a) : Reads (ofOption value) [] a := by
  intro buffer index _
  rw [h]
  rfl

theorem Reads.andThen (h : Reads reader bytes a) (hnext : Reads (next a) [] b) :
    Reads (reader >>= next) bytes b := by
  have hbind := h.bind hnext
  rwa [append_nil] at hbind

theorem reads_readNumber (hn : n < 2 ^ 32) : Reads readNumber (write 4 n) n := by
  intro buffer index hstands
  rw [readNumber, hstands.read4 hn, length_write]
  rfl

theorem reads_readBytes (hn : bytes.length = n) : Reads (readBytes n) bytes bytes := by
  intro buffer index hstands
  rw [readBytes, (slice_eq_some.1 (hstands.slice hn)).2, hn]

theorem reads_readBuffer (hlt : bytes.length < 2 ^ 32) :
    Reads readBuffer (write 4 bytes.length ++ bytes) bytes :=
  (reads_readNumber hlt).bind (reads_readBytes rfl)

theorem reads_readArray : ∀ {l : List α}, (∀ a ∈ l, Reads reader (encode a) a) →
      Reads (readArray reader l.length) (l.flatMap encode) l := by
  intro l
  induction l with
  | nil =>
    intro _
    exact Reads.pure []
  | cons a l ih =>
    intro h
    rw [forall_mem_cons] at h
    refine h.1.bind ?_
    refine (ih h.2).andThen ?_
    exact Reads.pure _

theorem reads_readVector {l : List α} (hlt : l.length < 2 ^ 32)
    (h : ∀ a ∈ l, Reads reader (encode a) a) :
    Reads (readVector reader) (write 4 l.length ++ l.flatMap encode) l :=
  (reads_readNumber hlt).bind (reads_readArray h)

theorem functionLogs_cons (log : Bytes) (logs : List Bytes) : functionLogs (log :: logs) =
      (write 4 log.length ++ log) ++ functionLogs logs :=
  flatMap_cons

theorem readBuffers_of_stands {stop : ℕ} :
    ∀ (l : List Bytes) {turns index : ℕ}, Stands buffer index (functionLogs l) →
      index + (functionLogs l).length = stop → (functionLogs l).length ≤ turns →
      (functionLogs l).length < 2 ^ 32 → readBuffers stop turns buffer index = some (l, stop) := by
  intro l
  induction l with
  | nil =>
    intro turns index _ hstop _ _
    obtain rfl : index = stop := hstop
    cases turns with
    | zero => rfl
    | succ turns => exact if_neg (lt_irrefl _)
  | cons log l ih =>
    intro turns index hstands hstop hturns hlt
    rw [functionLogs_cons] at hstands hstop hturns hlt
    simp only [length_append, length_write] at hstop hturns hlt
    obtain ⟨turns, rfl⟩ : ∃ t, turns = t + 1 := ⟨turns - 1, by omega⟩
    have hrest := hstands.right
    rw [length_append, length_write] at hrest
    have hitems := @ih turns _ hrest (by omega) (by omega) (by omega)
    have hbelow : index < stop := by omega
    rw [readBuffers]
    refine (if_pos hbelow).trans ?_
    rw [bind_eq_of_eq_some (reads_readBuffer (by omega) _ _ hstands.left), length_append,
      length_write, bind_eq_of_eq_some hitems]
    rfl

theorem reads_readBufferArray (hlt : (functionLogs l).length < 2 ^ 32) :
    Reads (readBufferArray (some (functionLogs l).length)) (functionLogs l) l := by
  intro buffer index hstands
  have hloop := readBuffers_of_stands l hstands rfl le_rfl hlt
  simp only [readBufferArray, Nat.add_sub_cancel_left, hloop]
  exact if_neg (not_not_intro rfl)

theorem readBufferArray_toEnd (hlt : (functionLogs l).length < 2 ^ 32) :
    readBufferArray none (functionLogs l) 0 = some (l, (functionLogs l).length) := by
  have hstands : Stands (functionLogs l) 0 (functionLogs l) := ⟨[], [], by simp, rfl⟩
  have hloop := readBuffers_of_stands l hstands (Nat.zero_add _) le_rfl hlt
  simp only [readBufferArray, Nat.sub_zero, hloop]
  exact if_neg (not_not_intro rfl)

end Lemmas

end BufferReader

/-! ### The writer -/

theorem numToUInt32BE_eq_some {n : ℕ} {bytes : Bytes} :
    numToUInt32BE n = some bytes ↔ n < 2 ^ 32 ∧ write 4 n = bytes := by
  rw [numToUInt32BE]
  split
  · next h => exact ⟨fun e => ⟨h, Option.some.inj e⟩, fun e => congrArg some e.2⟩
  · next h =>
      constructor
      · intro hnone
        cases hnone
      · rintro ⟨hlt, -⟩
        exact absurd hlt h

theorem prefixBufferWithLength_eq_some {buf bytes : Bytes} :
    prefixBufferWithLength buf = some bytes ↔
      buf.length < 2 ^ 32 ∧ write 4 buf.length ++ buf = bytes := by
  rw [prefixBufferWithLength, Option.map_eq_some_iff]
  constructor
  · rintro ⟨_, hlength, rfl⟩
    obtain ⟨hlt, rfl⟩ := numToUInt32BE_eq_some.1 hlength
    exact ⟨hlt, rfl⟩
  · rintro ⟨hlt, rfl⟩
    exact ⟨_, numToUInt32BE_eq_some.2 ⟨hlt, rfl⟩, rfl⟩

theorem mapM_eq_some_map {α β : Type} {f : α → Option β} {g : α → β} :
    ∀ {l : List α}, (∀ a ∈ l, f a = some (g a)) → l.mapM f = some (l.map g) := by
  intro l
  induction l with
  | nil =>
    intro _
    rfl
  | cons a l ih =>
    intro h
    rw [forall_mem_cons] at h
    rw [mapM_cons, h.1, ih h.2]
    rfl

theorem length_le_functionLogs {l : List Bytes} {buf : Bytes} (h : buf ∈ l) :
    buf.length ≤ (functionLogs l).length := by
  induction l with
  | nil => cases h
  | cons log l ih =>
    rw [BufferReader.functionLogs_cons, length_append, length_append]
    rcases mem_cons.1 h with rfl | h
    · omega
    · have := ih h
      omega

theorem eq_of_mapM_prefixBufferWithLength {l ls : List Bytes}
    (h : l.mapM prefixBufferWithLength = some ls) :
    ls = l.map fun buf => write 4 buf.length ++ buf := by
  induction l generalizing ls with
  | nil =>
    cases h
    rfl
  | cons buf l ih =>
    rw [mapM_cons] at h
    obtain ⟨b, hb, h⟩ := Option.bind_eq_some_iff.1 h
    obtain ⟨bs, hbs, h⟩ := Option.bind_eq_some_iff.1 h
    obtain ⟨-, rfl⟩ := prefixBufferWithLength_eq_some.1 hb
    cases h
    rw [ih hbs, map_cons]

theorem prefixBufferWithLength_mapM (l : List Bytes) :
    (do let ls ← l.mapM prefixBufferWithLength; prefixBufferWithLength ls.flatten) =
      prefixBufferWithLength (functionLogs l) := by
  by_cases hlt : (functionLogs l).length < 2 ^ 32
  · rw [mapM_eq_some_map fun buf hbuf => prefixBufferWithLength_eq_some.2
      ⟨(length_le_functionLogs hbuf).trans_lt hlt, rfl⟩]
    rfl
  · have hnone : prefixBufferWithLength (functionLogs l) = none := by
      rw [Option.eq_none_iff_forall_ne_some]
      exact fun bytes hbytes => hlt (prefixBufferWithLength_eq_some.1 hbytes).1
    rw [hnone, Option.eq_none_iff_forall_ne_some]
    intro bytes hbytes
    obtain ⟨ls, hls, hbytes⟩ := Option.bind_eq_some_iff.1 hbytes
    rw [eq_of_mapM_prefixBufferWithLength hls] at hbytes
    exact hlt (prefixBufferWithLength_eq_some.1 hbytes).1
