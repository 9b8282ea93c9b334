/-
**Offline memory checking.**

The accesses to a memory are listed in the order of their addresses, and for one address in the
order of time.  In that order it is enough to compare neighbours: when every read has the value of
the access before it, whenever that is at the same address, then every read has the value of the
latest write before it.  For a memory that is only read, neighbours at one address are equal.
-/

import Mathlib.Data.List.Chain
import Mathlib.Data.Set.Finite.Lemmas
import Mathlib.Data.Set.Finite.List

open List

namespace MemoryChecking

/-! ### Memories that are only read -/

section ReadOnly

variable {α ι : Type} [LinearOrder ι] (index : α → ι)

theorem eq_of_index_eq {entries : List α} (hle : entries.IsChain fun a b => index a ≤ index b)
    (hsame : entries.IsChain fun a b => index a = index b → a = b) :
    ∀ a ∈ entries, ∀ b ∈ entries, index a = index b → a = b := by
  have hsorted : entries.Pairwise fun a b => index a = index b → a = b := by
    induction entries with
    | nil => exact .nil
    | cons a entries ih =>
      rw [isChain_cons] at hle hsame
      have hpairwise := ih hle.2 hsame.2
      refine pairwise_cons.2 ⟨fun c hc hac => ?_, hpairwise⟩
      cases entries with
      | nil => exact absurd hc not_mem_nil
      | cons b entries =>
        have hab : index a ≤ index b := hle.1 b rfl
        have hbc : index b ≤ index c := by
          rcases mem_cons.1 hc with rfl | hc
          · exact le_rfl
          · have htrans : IsTrans α fun a b => index a ≤ index b := ⟨fun _ _ _ => le_trans⟩
            exact rel_of_pairwise_cons (isChain_iff_pairwise.1 hle.2) hc
        have heq : index a = index b := le_antisymm hab (hac ▸ hbc)
        obtain rfl : a = b := hsame.1 b rfl heq
        rcases mem_cons.1 hc with rfl | hc
        · rfl
        · exact rel_of_pairwise_cons hpairwise hc hac
  have hflip : entries.Pairwise (flip fun a b => index a = index b → a = b) :=
    hsorted.imp fun h hba => (h hba.symm).symm
  exact fun a ha b hb =>
    List.Pairwise.forall_of_forall_of_flip (fun _ _ _ => rfl) hsorted hflip ha hb

end ReadOnly

/-! ### Accesses -/

structure Access (ι τ ν : Type) where
  index : ι
  time : τ
  value : ν
  isWrite : Bool

variable {ι τ ν : Type} [LinearOrder ι] [LinearOrder τ] {accesses sorted : List (Access ι τ ν)}
  {r w w' : Access ι τ ν}

def Before (a b : Access ι τ ν) : Prop := a.index < b.index ∨ a.index = b.index ∧ a.time < b.time

instance : Trans (@Before ι τ ν _ _) Before Before where
  trans := by
    rintro a b c (hab | ⟨hab, habt⟩) (hbc | ⟨hbc, hbct⟩)
    · exact .inl (hab.trans hbc)
    · exact .inl (hbc ▸ hab)
    · exact .inl (hab ▸ hbc)
    · exact .inr ⟨hab.trans hbc, habt.trans hbct⟩

theorem Before.time_lt {a b : Access ι τ ν} (h : Before a b) (hindex : a.index = b.index) :
    a.time < b.time :=
  h.elim (fun hlt => absurd hindex hlt.ne) And.right

/-- A read has the value of the access before it at the same index. -/
def Copies (a b : Access ι τ ν) : Prop := a.index = b.index → b.isWrite = false → b.value = a.value

structure LatestWrite (accesses : List (Access ι τ ν)) (r w : Access ι τ ν) : Prop where
  mem : w ∈ accesses
  isWrite : w.isWrite = true
  index : w.index = r.index
  time : w.time < r.time
  latest : ∀ x ∈ accesses, x.isWrite = true → x.index = r.index → x.time < r.time →
    x.time ≤ w.time

/-- Every read has the value of the latest write before it. -/
def Consistent (accesses : List (Access ι τ ν)) : Prop :=
  ∀ r ∈ accesses, r.isWrite = false → ∃ w, LatestWrite accesses r w ∧ r.value = w.value

omit [LinearOrder ι] in
theorem LatestWrite.of_perm (hperm : accesses.Perm sorted) (h : LatestWrite accesses r w) :
    LatestWrite sorted r w :=
  ⟨hperm.mem_iff.1 h.mem, h.isWrite, h.index, h.time, fun x hx => h.latest x (hperm.mem_iff.2 hx)⟩

omit [LinearOrder ι] in
theorem Consistent.of_perm (hperm : accesses.Perm sorted) (h : Consistent accesses) :
    Consistent sorted := by
  intro r hr hread
  obtain ⟨w, hw, hvalue⟩ := h r (hperm.mem_iff.2 hr) hread
  exact ⟨w, hw.of_perm hperm, hvalue⟩

omit [LinearOrder ι] in
theorem exists_latestWrite (h : ∃ w ∈ accesses, w.isWrite = true ∧ w.index = r.index ∧
    w.time < r.time) : ∃ w, LatestWrite accesses r w := by
  have hfinite : {x | x ∈ accesses ∧ x.isWrite = true ∧ x.index = r.index ∧
      x.time < r.time}.Finite :=
    (finite_toSet accesses).subset fun _ hx => hx.1
  obtain ⟨w, ⟨hmem, hwrite, hindex, htime⟩, hlatest⟩ :=
    Set.exists_max_image _ Access.time hfinite h
  exact ⟨w, hmem, hwrite, hindex, htime, fun x hx hw hi ht => hlatest x ⟨hx, hw, hi, ht⟩⟩

/-! ### Soundness -/

omit [LinearOrder ι] [LinearOrder τ] in
theorem value_eq_of_reads {between : List (Access ι τ ν)}
    (hcopies : (w :: (between ++ [r])).IsChain Copies)
    (hreads : ∀ x ∈ between ++ [r], x.index = w.index ∧ x.isWrite = false) : r.value = w.value := by
  induction between generalizing w with
  | nil =>
    have hr := hreads r (mem_singleton_self r)
    exact (isChain_cons.1 hcopies).1 r rfl hr.1.symm hr.2
  | cons x between ih =>
    have hx := hreads x mem_cons_self
    obtain ⟨hhead, htail⟩ := isChain_cons.1 hcopies
    have hvalue : x.value = w.value := hhead x rfl hx.1.symm hx.2
    refine (ih htail fun y hy => ?_).trans hvalue
    have hy' := hreads y (mem_cons_of_mem _ hy)
    exact ⟨hy'.1.trans hx.1.symm, hy'.2⟩

theorem value_eq_of_latestWrite (hbefore : sorted.Pairwise Before) (hcopies : sorted.IsChain Copies)
    (hr : r ∈ sorted) (hread : r.isWrite = false) (hw : LatestWrite sorted r w) :
    r.value = w.value := by
  obtain ⟨left, right, rfl⟩ := append_of_mem hw.mem
  obtain ⟨-, hright, hleft⟩ := pairwise_append.1 hbefore
  -- the read comes after the write
  have hmem : r ∈ right := by
    rcases mem_append.1 hr with hr | hr
    · have hlt := (hleft r hr w mem_cons_self).time_lt hw.index.symm
      exact absurd hw.time hlt.not_gt
    · rcases mem_cons.1 hr with rfl | hr
      · exact absurd hw.time (lt_irrefl _)
      · exact hr
  obtain ⟨between, after, rfl⟩ := append_of_mem hmem
  have hchain : (w :: (between ++ [r])).IsChain Copies := by
    have h := hcopies.right_of_append
    rw [show w :: (between ++ r :: after) = (w :: (between ++ [r])) ++ after by simp] at h
    exact h.left_of_append
  refine value_eq_of_reads hchain fun x hx => ?_
  rcases mem_append.1 hx with hx | hx
  · -- between them there are only accesses to this index, and no write
    have hwx : Before w x := rel_of_pairwise_cons hright (mem_append_left _ hx)
    have hxr : Before x r := (pairwise_append.1 (pairwise_cons.1 hright).2).2.2 x hx r mem_cons_self
    have hindex : x.index = w.index := by
      have hle : w.index ≤ x.index := hwx.elim le_of_lt fun h => h.1.le
      have hge : x.index ≤ r.index := hxr.elim le_of_lt fun h => h.1.le
      exact le_antisymm (hge.trans hw.index.symm.le) hle
    refine ⟨hindex, ?_⟩
    by_contra hwrite
    have hmem : x ∈ left ++ w :: (between ++ r :: after) :=
      mem_append_right _ (mem_cons_of_mem _ (mem_append_left _ hx))
    have hle := hw.latest x hmem (by simpa using hwrite) (hindex.trans hw.index)
      (hxr.time_lt (hindex.trans hw.index))
    exact absurd (hwx.time_lt hindex.symm) hle.not_gt
  · rw [mem_singleton.1 hx]
    exact ⟨hw.index.symm, hread⟩

/-! ### Completeness -/

theorem eq_of_time_eq (hbefore : sorted.Pairwise Before) (hw : w ∈ sorted) (hw' : w' ∈ sorted)
    (hindex : w.index = w'.index) (htime : w.time = w'.time) : w = w' := by
  have hpairwise : sorted.Pairwise fun a b => a.index = b.index → a.time = b.time → a = b :=
    hbefore.imp fun h hi ht => absurd ht (h.time_lt hi).ne
  have hflip : sorted.Pairwise (flip fun a b => a.index = b.index → a.time = b.time → a = b) :=
    hbefore.imp fun h hi ht => absurd ht (h.time_lt hi.symm).ne'
  exact List.Pairwise.forall_of_forall_of_flip (fun _ _ _ _ => rfl) hpairwise hflip hw hw' hindex
    htime

theorem copies_of_consistent (hbefore : sorted.Pairwise Before) (hreads : Consistent sorted) :
    sorted.IsChain Copies := by
  rw [isChain_iff_forall_rel_of_append_cons_cons]
  intro a b left right hsorted hindex hread
  subst hsorted
  have ha : a ∈ left ++ a :: b :: right := by simp
  have hb : b ∈ left ++ a :: b :: right := by simp
  obtain ⟨w, hw, hvalue⟩ := hreads b hb hread
  obtain ⟨-, hright, hleft⟩ := pairwise_append.1 hbefore
  obtain ⟨hab, hbright⟩ := pairwise_cons.1 hright
  have habtime : a.time < b.time := (hab b mem_cons_self).time_lt hindex
  -- the write is `a` or comes before it
  have hwa : w = a ∨ w.time < a.time := by
    have hmem := hw.mem
    simp only [mem_append, mem_cons] at hmem
    rcases hmem with hmem | rfl | rfl | hmem
    · exact .inr ((hleft w hmem a mem_cons_self).time_lt (hw.index.trans hindex.symm))
    · exact .inl rfl
    · exact absurd hw.time (lt_irrefl _)
    · have hlt := (rel_of_pairwise_cons hbright hmem).time_lt hw.index.symm
      exact absurd hw.time hlt.not_gt
  rcases hwa with rfl | hlt
  · exact hvalue
  · cases hawrite : a.isWrite with
    | true => exact absurd hlt (hw.latest a ha hawrite hindex habtime).not_gt
    | false =>
      obtain ⟨w', hw', hvalue'⟩ := hreads a ha hawrite
      have hle : w.time ≤ w'.time :=
        hw'.latest w hw.mem hw.isWrite (hw.index.trans hindex.symm) hlt
      have hge : w'.time ≤ w.time :=
        hw.latest w' hw'.mem hw'.isWrite (hw'.index.trans hindex) (hw'.time.trans habtime)
      have heq : w = w' := eq_of_time_eq hbefore hw.mem hw'.mem
        ((hw.index.trans hindex.symm).trans hw'.index.symm) (le_antisymm hle hge)
      rw [hvalue, hvalue', heq]

/-! ### Recording accesses in the order of time -/

def Stored (accesses : List (Access ι τ ν)) (i : ι) (x : ν) : Prop :=
  ∃ w ∈ accesses, w.isWrite = true ∧ w.index = i ∧ w.value = x ∧
    ∀ w' ∈ accesses, w'.isWrite = true → w'.index = i → w'.time ≤ w.time

variable {a : Access ι τ ν} {i : ι} {x : ν}

omit [LinearOrder ι] in
theorem Stored.append_write (hlate : ∀ b ∈ accesses, b.time < a.time) (hwrite : a.isWrite = true) :
    Stored (accesses ++ [a]) a.index a.value := by
  refine ⟨a, by simp, hwrite, rfl, rfl, fun w hw _ _ => ?_⟩
  rcases mem_append.1 hw with hw | hw
  · exact (hlate w hw).le
  · rw [mem_singleton.1 hw]

omit [LinearOrder ι] in
theorem Stored.append (h : Stored accesses i x) (hne : a.isWrite = true → a.index ≠ i) :
    Stored (accesses ++ [a]) i x := by
  obtain ⟨w, hmem, hwrite, hindex, hvalue, hlatest⟩ := h
  refine ⟨w, mem_append_left _ hmem, hwrite, hindex, hvalue, fun w' hw' hwrite' hi => ?_⟩
  rcases mem_append.1 hw' with hw' | hw'
  · exact hlatest w' hw' hwrite' hi
  · obtain rfl := mem_singleton.1 hw'
    exact absurd hi (hne hwrite')

omit [LinearOrder ι] in
theorem LatestWrite.append (h : LatestWrite accesses r w) (hlate : r.time < a.time) :
    LatestWrite (accesses ++ [a]) r w := by
  refine ⟨mem_append_left _ h.mem, h.isWrite, h.index, h.time, fun b hb hwrite hi ht => ?_⟩
  rcases mem_append.1 hb with hb | hb
  · exact h.latest b hb hwrite hi ht
  · obtain rfl := mem_singleton.1 hb
    exact absurd ht hlate.not_gt

omit [LinearOrder ι] in
theorem Consistent.append (h : Consistent accesses) (hlate : ∀ b ∈ accesses, b.time < a.time)
    (hread : a.isWrite = false → Stored accesses a.index a.value) :
    Consistent (accesses ++ [a]) := by
  intro r hr hrread
  rcases mem_append.1 hr with hr | hr
  · obtain ⟨w, hw, hvalue⟩ := h r hr hrread
    exact ⟨w, hw.append (hlate r hr), hvalue⟩
  · obtain rfl := mem_singleton.1 hr
    obtain ⟨w, hmem, hwrite, hindex, hvalue, hlatest⟩ := hread hrread
    refine ⟨w, ⟨mem_append_left _ hmem, hwrite, hindex, hlate w hmem, ?_⟩, hvalue.symm⟩
    intro w' hw' hwrite' hi ht
    rcases mem_append.1 hw' with hw' | hw'
    · exact hlatest w' hw' hwrite' hi
    · obtain rfl := mem_singleton.1 hw'
      exact absurd ht (lt_irrefl _)

end MemoryChecking
