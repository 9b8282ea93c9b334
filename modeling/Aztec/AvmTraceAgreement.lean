/-
**The main trace and the memory trace of the AVM circuit.**

A register whose memory operation is selected stands for one entry of the memory trace, and every
entry is that of one register.
-/

import Aztec.AvmMemTable

open List

namespace AvmTrace

/-! ### Registers and entries -/

def IntermRegister.subClk (reg : IntermRegister) (rw : FF) : ℕ :=
  if rw = 1 then reg.subClkStore else reg.subClkLoad

/-- A register and an entry of the same clock, sub-clock, address and direction. -/
structure SameAccess (row : MainRow) (reg : IntermRegister) (y : MemoryTraceEntry) : Prop where
  memOp : row.memOp reg = 1
  clk : (y.mClk : FF) = row.clk
  subClk : y.mSubClk = reg.subClk (row.rw reg)
  addr : (y.mAddr : FF) = row.memIdx reg
  rw : FF.ofBool y.mRw = row.rw reg

def SameAccessAndValue (row : MainRow) (reg : IntermRegister) (y : MemoryTraceEntry) : Prop :=
  SameAccess row reg y ∧ y.mVal = row.value reg

/-- **What a register says of its entry**: without a tag error it has the value of the entry, and
with one a register that is loaded is zero. -/
structure AccessAgrees (row : MainRow) (reg : IntermRegister) (y : MemoryTraceEntry) : Prop extends
    SameAccess row reg y where
  loaded : row.rw reg = 0 → ValueLoaded row reg y.mVal
  stored : row.rw reg = 1 → ValueStored row reg y.mVal

/-- **Registers and entries correspond one to one.** -/
def TracesAgree (R : MainRow → IntermRegister → MemoryTraceEntry → Prop) (builder : AvmTraceBuilder) :
    Prop :=
  (∀ (i : Fin builder.mainTrace.length) (reg : IntermRegister),
    (builder.mainTrace.get i).memOp reg = 1 →
      ∃! k : Fin builder.memTraceBuilder.memTrace.length,
        R (builder.mainTrace.get i) reg (builder.memTraceBuilder.memTrace.get k)) ∧
  ∀ k : Fin builder.memTraceBuilder.memTrace.length,
    ∃! p : Fin builder.mainTrace.length × IntermRegister,
      R (builder.mainTrace.get p.1) p.2 (builder.memTraceBuilder.memTrace.get k)

/-! ### The correspondence of a run -/

/-- The invariant: every selected register has an entry, every entry a register, and the clocks are
those of the places. -/
structure Agreement (builder : AvmTraceBuilder) : Prop where
  clk : ∀ (i : ℕ) (row : MainRow), builder.mainTrace[i]? = some row → row.clk = i
  entry : ∀ row ∈ builder.mainTrace, ∀ reg, row.memOp reg = 1 →
    ∃ y ∈ builder.memTraceBuilder.memTrace, AccessAgrees row reg y
  register : ∀ y ∈ builder.memTraceBuilder.memTrace,
    ∃ row ∈ builder.mainTrace, ∃ reg, AccessAgrees row reg y
  mClk : ∀ y ∈ builder.memTraceBuilder.memTrace, y.mClk < builder.mainTrace.length
  chronological : builder.memTraceBuilder.memTrace.Pairwise fun x y =>
    x.mClk < y.mClk ∨ (x.mClk = y.mClk ∧ x.mSubClk < y.mSubClk)

theorem Agreement.new : Agreement {} := by
  constructor <;> simp

structure LoadEntry (clk : ℕ) (mem : AvmMemTraceBuilder) (p : IntermRegister × ℕ)
    (y : MemoryTraceEntry) : Prop where
  mClk : y.mClk = clk
  mSubClk : y.mSubClk = p.1.subClkLoad
  mAddr : y.mAddr = p.2
  mVal : y.mVal = mem.memory p.2
  mRw : y.mRw = false

structure StoreEntry (clk : ℕ) (p : IntermRegister × ℕ × FF) (y : MemoryTraceEntry) : Prop where
  mClk : y.mClk = clk
  mSubClk : y.mSubClk = p.1.subClkStore
  mAddr : y.mAddr = p.2.1
  mVal : y.mVal = p.2.2
  mRw : y.mRw = true

section Entries

variable {clk : ℕ} {inTag : AvmMemoryTag} {mem mem' : AvmMemTraceBuilder}

theorem Loads.entries {loads : List (IntermRegister × ℕ)} (h : Loads clk inTag mem loads mem') :
    ∃ ys, mem'.memTrace = mem.memTrace ++ ys ∧ List.Forall₂ (LoadEntry clk mem) loads ys := by
  induction h with
  | nil mem => exact ⟨[], by simp, .nil⟩
  | @cons mem mid mem' reg addr read y rest head tail ih =>
    obtain ⟨ys, htrace, hentries⟩ := ih
    refine ⟨y :: ys, by rw [htrace, head.memTrace]; simp, .cons ?_ (hentries.imp ?_)⟩
    · exact ⟨head.mClk, head.mSubClk, head.mAddr, head.mVal.trans head.val, head.mRw⟩
    · rintro p z ⟨hclk, hsub, haddr, hval, hrw⟩
      exact ⟨hclk, hsub, haddr, by rw [hval, head.memory], hrw⟩

theorem Stores.entries {stores : List (IntermRegister × ℕ × FF)}
    (h : Stores clk inTag mem stores mem') :
    ∃ ys, mem'.memTrace = mem.memTrace ++ ys ∧ List.Forall₂ (StoreEntry clk) stores ys := by
  induction h with
  | nil mem => exact ⟨[], by simp, .nil⟩
  | @cons mem mid mem' reg addr val y rest head tail ih =>
    obtain ⟨ys, htrace, hentries⟩ := ih
    refine ⟨y :: ys, by rw [htrace, head.memTrace]; simp, .cons ?_ hentries⟩
    exact ⟨head.mClk, head.mSubClk, head.mAddr, head.mVal, head.mRw⟩

end Entries

variable {α β : Type} {R : α → β → Prop} {l : List α} {l' : List β}

theorem exists_of_forall₂ (h : List.Forall₂ R l l') :
    (∀ a ∈ l, ∃ b ∈ l', R a b) ∧ ∀ b ∈ l', ∃ a ∈ l, R a b := by
  induction h with
  | nil => simp
  | cons hab _ ih =>
    obtain ⟨hleft, hright⟩ := ih
    constructor
    · intro a ha
      rcases mem_cons.1 ha with rfl | ha
      · exact ⟨_, mem_cons_self, hab⟩
      · obtain ⟨b, hb, hR⟩ := hleft a ha
        exact ⟨b, mem_cons_of_mem _ hb, hR⟩
    · intro b hb
      rcases mem_cons.1 hb with rfl | hb
      · exact ⟨_, mem_cons_self, hab⟩
      · obtain ⟨a, ha, hR⟩ := hright b hb
        exact ⟨a, mem_cons_of_mem _ ha, hR⟩

theorem pairwise_of_forall₂ {f : α → ℕ} {g : β → ℕ} (h : List.Forall₂ R l l')
    (hR : ∀ a b, R a b → g b = f a) (horder : (l.map f).Pairwise (· < ·)) :
    (l'.map g).Pairwise (· < ·) := by
  have hmap : l'.map g = l.map f := by
    clear horder
    induction h with
    | nil => rfl
    | cons hab _ ih => rw [map_cons, map_cons, ih, hR _ _ hab]
  rwa [hmap]

theorem subClkLoad_lt_subClkStore (reg reg' : IntermRegister) : reg.subClkLoad < reg'.subClkStore := by
  cases reg <;> cases reg' <;> decide

section Steps

variable {inTag : AvmMemoryTag} {before after : AvmTraceBuilder}

theorem RowStep.agreement {loads : List (IntermRegister × ℕ)}
    {stores : List (IntermRegister × ℕ × FF)} {row : MainRow}
    (h : RowStep inTag loads stores row before after) (hlength : before.mainTrace.length < 2 ^ 32)
    (hagree : Agreement before) : Agreement after := by
  obtain ⟨mid, hloads, hstores⟩ := h.accesses
  rw [clk_eq before hlength] at hloads hstores
  obtain ⟨ls, hls, hloadEntries⟩ := hloads.entries
  obtain ⟨ss, hss, hstoreEntries⟩ := hstores.entries
  obtain ⟨hloadLeft, hloadRight⟩ := exists_of_forall₂ hloadEntries
  obtain ⟨hstoreLeft, hstoreRight⟩ := exists_of_forall₂ hstoreEntries
  have htrace : after.memTraceBuilder.memTrace = before.memTraceBuilder.memTrace ++ (ls ++ ss) := by
    rw [hss, hls, append_assoc]
  have hclk := h.clk hlength
  have hload (p : IntermRegister × ℕ) (hp : p ∈ loads) (y : MemoryTraceEntry)
      (hy : LoadEntry before.mainTrace.length before.memTraceBuilder p y) :
      AccessAgrees row p.1 y := by
    obtain ⟨hrw, hidx, hval⟩ := h.agrees.load p hp
    refine ⟨⟨(h.agrees.memOp p.1).2 (mem_append_left _ (mem_map_of_mem hp)), ?_, ?_, ?_, ?_⟩,
      fun _ => ?_, fun hone => ?_⟩
    · rw [hy.mClk, hclk]
    · rw [hy.mSubClk, hrw, IntermRegister.subClk, if_neg zero_ne_one]
    · rw [hy.mAddr, hidx]
    · rw [hy.mRw, hrw, FF.ofBool_false]
    · rw [hy.mVal]
      exact hval
    · rw [hrw] at hone
      exact absurd hone zero_ne_one
  have hstore (p : IntermRegister × ℕ × FF) (hp : p ∈ stores) (y : MemoryTraceEntry)
      (hy : StoreEntry before.mainTrace.length p y) : AccessAgrees row p.1 y := by
    obtain ⟨hrw, hidx, hval⟩ := h.agrees.store p hp
    refine ⟨⟨(h.agrees.memOp p.1).2 (mem_append_right _ (mem_map_of_mem hp)), ?_, ?_, ?_,
      ?_⟩, fun hzero => ?_, fun _ => ?_⟩
    · rw [hy.mClk, hclk]
    · rw [hy.mSubClk, hrw, IntermRegister.subClk, if_pos rfl]
    · rw [hy.mAddr, hidx]
    · rw [hy.mRw, hrw, FF.ofBool_true]
    · rw [hrw] at hzero
      exact absurd hzero one_ne_zero
    · rw [hy.mVal]
      exact hval
  constructor
  · intro i row' hi
    rw [h.mainTrace, List.getElem?_append] at hi
    split at hi
    · exact hagree.clk i row' hi
    · next hge =>
      rw [List.getElem?_singleton] at hi
      split at hi
      · next hzero =>
        cases hi
        rw [hclk, show i = before.mainTrace.length by omega]
      · cases hi
  · intro row' hrow' reg hmemOp
    rw [htrace]
    rw [h.mainTrace] at hrow'
    rcases mem_append.1 hrow' with hold | hnew
    · obtain ⟨y, hy, hagrees⟩ := hagree.entry row' hold reg hmemOp
      exact ⟨y, mem_append_left _ hy, hagrees⟩
    · rw [mem_singleton.1 hnew] at hmemOp ⊢
      rcases mem_append.1 ((h.agrees.memOp reg).1 hmemOp) with hreg | hreg
      · obtain ⟨p, hp, rfl⟩ := mem_map.1 hreg
        obtain ⟨y, hy, hentry⟩ := hloadLeft p hp
        exact ⟨y, mem_append_right _ (mem_append_left _ hy), hload p hp y hentry⟩
      · obtain ⟨p, hp, rfl⟩ := mem_map.1 hreg
        obtain ⟨y, hy, hentry⟩ := hstoreLeft p hp
        exact ⟨y, mem_append_right _ (mem_append_right _ hy), hstore p hp y hentry⟩
  · intro y hy
    rw [h.mainTrace]
    rw [htrace, mem_append, mem_append] at hy
    have hnew : row ∈ before.mainTrace ++ [row] := by simp
    rcases hy with hold | hy | hy
    · obtain ⟨row', hrow', reg, hagrees⟩ := hagree.register y hold
      exact ⟨row', mem_append_left _ hrow', reg, hagrees⟩
    · obtain ⟨p, hp, hentry⟩ := hloadRight y hy
      exact ⟨row, hnew, p.1, hload p hp y hentry⟩
    · obtain ⟨p, hp, hentry⟩ := hstoreRight y hy
      exact ⟨row, hnew, p.1, hstore p hp y hentry⟩
  · intro y hy
    rw [h.mainTrace, length_append, length_singleton]
    rw [htrace, mem_append, mem_append] at hy
    rcases hy with hold | hy | hy
    · exact (hagree.mClk y hold).trans (Nat.lt_succ_self _)
    · obtain ⟨p, hp, hentry⟩ := hloadRight y hy
      rw [hentry.mClk]
      omega
    · obtain ⟨p, hp, hentry⟩ := hstoreRight y hy
      rw [hentry.mClk]
      omega
  · -- The new entries are later than the old ones, and in the order of their sub-clocks.
    have hnew : (ls ++ ss).Pairwise fun x y => x.mSubClk < y.mSubClk := by
      refine pairwise_append.2 ⟨?_, ?_, fun x hx y hy => ?_⟩
      · exact pairwise_map.1 (pairwise_of_forall₂ hloadEntries
          (fun p y hy => hy.mSubClk) h.loadOrder)
      · exact pairwise_map.1 (pairwise_of_forall₂ hstoreEntries
          (fun p y hy => hy.mSubClk) h.storeOrder)
      · obtain ⟨⟨reg, addr⟩, -, hx⟩ := hloadRight x hx
        obtain ⟨⟨reg', addr', val⟩, -, hy⟩ := hstoreRight y hy
        rw [hx.mSubClk, hy.mSubClk]
        exact subClkLoad_lt_subClkStore reg reg'
    have hmClk (y : MemoryTraceEntry) (hy : y ∈ ls ++ ss) : y.mClk = before.mainTrace.length := by
      rcases mem_append.1 hy with hy | hy
      · obtain ⟨p, -, hentry⟩ := hloadRight y hy
        exact hentry.mClk
      · obtain ⟨p, -, hentry⟩ := hstoreRight y hy
        exact hentry.mClk
    rw [htrace]
    refine pairwise_append.2 ⟨hagree.chronological, ?_, fun x hx y hy => ?_⟩
    · exact hnew.imp_of_mem fun {x y} hx hy hlt =>
        .inr ⟨(hmClk x hx).trans (hmClk y hy).symm, hlt⟩
    · rw [hmClk y hy]
      exact .inl (hagree.mClk x hx)

theorem RowSteps.agreement {reads : List ℕ} (h : RowSteps inTag reads before after)
    (hlength : after.mainTrace.length < 2 ^ 32) (hagree : Agreement before) : Agreement after := by
  induction h with
  | done mainTrace mem =>
    refine ⟨?_, ?_, ?_, ?_, ?_⟩
    · rw [mainTrace]
      exact hagree.clk
    · rw [mainTrace, mem]
      exact hagree.entry
    · rw [mainTrace, mem]
      exact hagree.register
    · rw [mainTrace, mem]
      exact hagree.mClk
    · rw [mem]
      exact hagree.chronological
  | row head within tail ih =>
    have hle := tail.length_le
    rw [head.mainTrace, length_append] at hle
    exact ih hlength (head.agreement (by omega) hagree)

end Steps

theorem agreement_run {operations : List Operation} {before after : AvmTraceBuilder}
    (h : run before operations = some after) (hlength : after.mainTrace.length < 2 ^ 32)
    (hagree : Agreement before) : Agreement after := by
  induction operations generalizing before with
  | nil =>
    cases h
    exact hagree
  | cons operation rest ih =>
    obtain ⟨mid, hmid, hrest⟩ := run_cons.1 h
    have hle := length_le_run hrest
    exact ih hrest ((Operation.steps hmid).agreement (by omega) hagree)

/-! ### One to one -/

theorem subClk_injective {reg reg' : IntermRegister} {rw : FF} (h : reg.subClk rw = reg'.subClk rw) :
    reg = reg' := by
  rw [IntermRegister.subClk, IntermRegister.subClk] at h
  split at h <;> cases reg <;> cases reg' <;> first | rfl | exact absurd h (by decide)

theorem Agreement.tracesAgree {builder : AvmTraceBuilder} (h : Agreement builder)
    (hlength : builder.mainTrace.length < 2 ^ 32) : TracesAgree AccessAgrees builder := by
  have hfield {n : ℕ} (hn : n < builder.mainTrace.length) : n < Kernel.fieldModulus :=
    FF.lt_fieldModulus (hn.trans (hlength.trans (by decide)))
  have hclk (i : Fin builder.mainTrace.length) : (builder.mainTrace.get i).clk = (i : ℕ) :=
    h.clk i _ (by simp)
  constructor
  · intro i reg hmemOp
    obtain ⟨y, hy, hagrees⟩ := h.entry _ (get_mem _ i) reg hmemOp
    obtain ⟨k, rfl⟩ := mem_iff_get.1 hy
    refine ⟨k, hagrees, fun k' hagrees' => ?_⟩
    have hsameClk := FF.natCast_injOn (hfield (h.mClk _ (get_mem _ k')))
      (hfield (h.mClk _ (get_mem _ k))) (hagrees'.clk.trans hagrees.clk.symm)
    have hsameSub := hagrees'.subClk.trans hagrees.subClk.symm
    -- Entries of one clock and sub-clock are not at different places.
    have hpairs := pairwise_iff_get.1 h.chronological
    rcases lt_trichotomy k' k with hlt | heq | hlt
    · have hbefore := hpairs k' k hlt
      omega
    · exact heq
    · have hbefore := hpairs k k' hlt
      omega
  · intro k
    obtain ⟨row, hrow, reg, hagrees⟩ := h.register _ (get_mem _ k)
    obtain ⟨i, rfl⟩ := mem_iff_get.1 hrow
    refine ⟨(i, reg), hagrees, fun p hagrees' => ?_⟩
    obtain ⟨i', reg'⟩ := p
    have hcast : ((i' : ℕ) : FF) = (i : ℕ) := by
      rw [← hclk i', ← hclk i]
      exact hagrees'.clk.symm.trans hagrees.clk
    obtain rfl : i' = i := Fin.ext (FF.natCast_injOn (hfield i'.2) (hfield i.2) hcast)
    have hrw := hagrees'.rw.symm.trans hagrees.rw
    have hsub := hagrees'.subClk.symm.trans hagrees.subClk
    rw [hrw] at hsub
    exact congrArg (Prod.mk i') (subClk_injective hsub)

/-- **The traces agree after every sequence of operations.** -/
theorem tracesAgree_run {operations : List Operation} {builder : AvmTraceBuilder}
    (h : run {} operations = some builder) (hlength : builder.mainTrace.length < 2 ^ 32) :
    TracesAgree AccessAgrees builder :=
  (agreement_run h hlength .new).tracesAgree hlength

theorem tracesAgree_doubling : ∃ builder, run {} doubling = some builder ∧
    TracesAgree AccessAgrees builder := by
  obtain ⟨builder, hrun, hlength⟩ : ∃ builder, run {} doubling = some builder ∧
      builder.mainTrace.length < 2 ^ 32 := ⟨_, rfl, by decide⟩
  exact ⟨builder, hrun, tracesAgree_run hrun hlength⟩

/-- A number that is added to itself as one of another type. -/
def mismatching : List Operation := [.set 5 0 .U8, .opAdd 0 0 1 .U16]

/-- **Registers are zero when there is a tag error**, and their entries are not. -/
theorem not_tracesAgree : ¬∀ (operations : List Operation) (builder : AvmTraceBuilder),
      run {} operations = some builder → builder.mainTrace.length < 2 ^ 32 →
        TracesAgree SameAccessAndValue builder := by
  intro h
  obtain ⟨builder, hrun, hlength, row, hrow, hmemOp, hrw, hia, hentries⟩ : ∃ builder,
      run {} mismatching = some builder ∧ builder.mainTrace.length < 2 ^ 32 ∧
        ∃ row ∈ builder.mainTrace, row.memOp .IA = 1 ∧ row.rw .IA = 0 ∧ row.value .IA = 0 ∧
          ∀ y ∈ builder.memTraceBuilder.memTrace, y.mSubClk = 0 → y.mVal = (5 : ℕ) := by
    refine ⟨_, rfl, by decide, _, mem_cons_of_mem _ mem_cons_self, rfl, rfl, rfl, ?_⟩
    intro y hy hsub
    rcases mem_cons.1 hy with rfl | hy
    · cases hsub
    rcases mem_cons.1 hy with rfl | hy
    · rfl
    rcases mem_pair.1 hy with rfl | rfl
    · cases hsub
    · cases hsub
  obtain ⟨i, rfl⟩ := mem_iff_get.1 hrow
  obtain ⟨k, ⟨hsame, hval⟩, -⟩ := (h mismatching builder hrun hlength).1 i .IA hmemOp
  have hsub := hsame.subClk
  rw [hrw, IntermRegister.subClk, if_neg zero_ne_one] at hsub
  rw [hia, hentries _ (get_mem _ k) hsub, ← Nat.cast_zero] at hval
  have hfive : 5 = 0 := FF.natCast_injOn (FF.lt_fieldModulus (by norm_num))
    (FF.lt_fieldModulus (by norm_num)) hval
  cases hfive

end AvmTrace
