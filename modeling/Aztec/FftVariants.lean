/-
**The variants of the fast Fourier transform.**

`fft_inner_parallel` in its two overloads, `fft_inner_serial`, the inverses, the transforms on a
coset and the one that extends the domain.  The coefficients may be spread over several arrays.
-/

import Aztec.FourierTransform
import Mathlib.Tactic.IntervalCases

open List Function
open List (range range' range'_1_concat)

namespace FftVariants

open FourierTransform

variable {F : Type} [Field F]

/-! ### The domain -/

/-- `EvaluationDomain`; the size is `2 ^ log2Size`, and `coset_fft` scales `generatorSize`
coefficients. -/
structure EvaluationDomain (F : Type) where
  log2Size : ℕ
  numThreads : ℕ
  generatorSize : ℕ
  root : F
  rootInverse : F
  domainInverse : F
  generator : F
  generatorInverse : F

def EvaluationDomain.size (D : EvaluationDomain F) : ℕ := 2 ^ D.log2Size

def EvaluationDomain.threadSize (D : EvaluationDomain F) : ℕ := D.size / D.numThreads

def computeNumThreads (cpus size : ℕ) : ℕ :=
  let numThreads := 2 ^ Nat.log2 cpus
  if size ≤ numThreads * 4 then 1 else numThreads

def getRootOfUnity (primitiveRoot : F) (primitiveRootLogSize subgroupSize : ℕ) : F :=
  (List.range (primitiveRootLogSize - subgroupSize)).foldl (fun r _ => r ^ 2) primitiveRoot

def EvaluationDomain.make (cpus : ℕ) (primitiveRoot : F) (primitiveRootLogSize : ℕ)
    (cosetGenerator : F) (log2Size targetGeneratorSize : ℕ) : EvaluationDomain F :=
  let root := getRootOfUnity primitiveRoot primitiveRootLogSize log2Size
  let generatorSize := if targetGeneratorSize ≠ 0 then targetGeneratorSize else 2 ^ log2Size
  ⟨log2Size, computeNumThreads cpus (2 ^ log2Size), generatorSize, root, root⁻¹,
    ((2 ^ log2Size : ℕ) : F)⁻¹, cosetGenerator, cosetGenerator⁻¹⟩

/-- The entries of one table of `compute_lookup_table_single`, each from the one before. -/
def tableEntry (roundRoot : F) : ℕ → F
  | 0 => 1
  | j + 1 => tableEntry roundRoot j * roundRoot

/-- The table `i` of `compute_lookup_table_single`. -/
def roundRoots (inputRoot : F) (size i : ℕ) : ℕ → F :=
  let m := 2 ^ (i + 1)
  tableEntry (inputRoot ^ (size / (2 * m)))

/-! ### The indices -/

/-- `reverse_bits`, before the shift by the length. -/
def reverseWord (x : BitVec 32) : BitVec 32 :=
  let x := ((x &&& 0xaaaaaaaa#32) >>> 1) ||| ((x &&& 0x55555555#32) <<< 1)
  let x := ((x &&& 0xcccccccc#32) >>> 2) ||| ((x &&& 0x33333333#32) <<< 2)
  let x := ((x &&& 0xf0f0f0f0#32) >>> 4) ||| ((x &&& 0x0f0f0f0f#32) <<< 4)
  let x := ((x &&& 0xff00ff00#32) >>> 8) ||| ((x &&& 0x00ff00ff#32) <<< 8)
  (x >>> 16) ||| (x <<< 16)

def reverseBits (x : BitVec 32) (bitLength : ℕ) : BitVec 32 := reverseWord x >>> (32 - bitLength)

/-- The index with which an index of the loop is exchanged. -/
def swapIndex (i log2Size : ℕ) : ℕ := (reverseBits (BitVec.ofNat 32 i) log2Size).toNat

def readAt (log2PolySize : ℕ) (coeffs : ℕ → ℕ → F) (x : ℕ) : F :=
  coeffs (x >>> log2PolySize) (x &&& (2 ^ log2PolySize - 1))

def writeAt (log2PolySize : ℕ) (coeffs : ℕ → ℕ → F) (x : ℕ) (value : F) : ℕ → ℕ → F :=
  Function.update coeffs (x >>> log2PolySize)
    (Function.update (coeffs (x >>> log2PolySize)) (x &&& (2 ^ log2PolySize - 1)) value)

/-! ### The loops -/

/-- A loop whose thread `j` takes the `count` indices from `j * count`. -/
def parallelLoop {σ : Type} (numThreads count : ℕ) (f : σ → ℕ → σ) (s : σ) : σ :=
  (List.range numThreads).foldl (fun s j => (List.range' (j * count) count).foldl f s) s

/-- The first loop, for the indices `2 * t` and `2 * t + 1`: the first round on the coefficients
in the reversed order. -/
def loadStep (log2Size : ℕ) (read : ℕ → F) (s : ℕ → F) (t : ℕ) : ℕ → F :=
  let i := 2 * t
  let temp1 := read (swapIndex i log2Size)
  let temp2 := read (swapIndex (i + 1) log2Size)
  Function.update (Function.update s (i + 1) (temp1 - temp2)) i (temp1 + temp2)

def lowerIndex (m i : ℕ) : ℕ :=
  let blockMask := m - 1
  let k1 := (i - (i &&& blockMask)) <<< 1
  let j1 := i &&& blockMask
  k1 + j1

def butterflyStep (m : ℕ) (roots : ℕ → F) (s : ℕ → F) (i : ℕ) : ℕ → F :=
  let lower := lowerIndex m i
  let temp := roots (i &&& (m - 1)) * s (lower + m)
  let t := Function.update s (lower + m) (s lower - temp)
  Function.update t lower (t lower + temp)

/-- A butterfly of the last round, from the scratch space into the coefficients. -/
def lastStep (log2PolySize m : ℕ) (roots scratch : ℕ → F) (coeffs : ℕ → ℕ → F) (i : ℕ) :
    ℕ → ℕ → F :=
  let lower := lowerIndex m i
  let temp := roots (i &&& (m - 1)) * scratch (lower + m)
  let coeffs := writeAt log2PolySize coeffs (lower + m) (scratch lower - temp)
  writeAt log2PolySize coeffs lower (scratch lower + temp)

/-- One round of the outer loop; the last one writes the coefficients. -/
def roundStep (D : EvaluationDomain F) (inputRoot : F) (log2PolySize : ℕ)
    (s : (ℕ → F) × (ℕ → ℕ → F)) (r : ℕ) : (ℕ → F) × (ℕ → ℕ → F) :=
  let m := 2 ^ r
  let roots := roundRoots inputRoot D.size (r - 1)
  if m ≠ D.size / 2 then
    (parallelLoop D.numThreads (D.threadSize / 2) (butterflyStep m roots) s.1, s.2)
  else
    (s.1, parallelLoop D.numThreads (D.threadSize / 2) (lastStep log2PolySize m roots s.1) s.2)

/-- `fft_inner_parallel` over `2 ^ logPolys` arrays, with what the scratch space held before.  For
a domain of size two the results go to the first two entries of the first array. -/
def fftInnerParallel (D : EvaluationDomain F) (inputRoot : F) (logPolys : ℕ) (scratch : ℕ → F)
    (coeffs : ℕ → ℕ → F) : Option (ℕ → ℕ → F) := do
  let polySize := D.size / 2 ^ logPolys
  let log2PolySize := Nat.log2 polySize
  let scratch := parallelLoop D.numThreads (D.threadSize / 2)
    (loadStep D.log2Size (readAt log2PolySize coeffs)) scratch
  let coeffs ←
    if D.size ≤ 2 then
      if 1 < polySize then
        some (Function.update coeffs 0
          (Function.update (Function.update (coeffs 0) 0 (scratch 0)) 1 (scratch 1)))
      else none
    else some coeffs
  return ((List.range' 1 (D.log2Size - 1)).foldl (roundStep D inputRoot log2PolySize)
    (scratch, coeffs)).2

/-- `fft_inner_parallel` into a second array: the coefficients, which a domain of size two
overwrites, and the target. -/
def fftInnerInto (D : EvaluationDomain F) (inputRoot : F) (coeffs target : ℕ → F) :
    (ℕ → F) × (ℕ → F) :=
  let target := parallelLoop D.numThreads (D.threadSize / 2) (loadStep D.log2Size coeffs) target
  let coeffs :=
    if D.size ≤ 2 then Function.update (Function.update coeffs 0 (target 0)) 1 (target 1)
    else coeffs
  (coeffs, (List.range' 1 (D.log2Size - 1)).foldl (fun target r =>
    parallelLoop D.numThreads (D.threadSize / 2)
      (butterflyStep (2 ^ r) (roundRoots inputRoot D.size (r - 1))) target) target)

def swapStep (log2PolySize log2Size : ℕ) (coeffs : ℕ → ℕ → F) (i : ℕ) : ℕ → ℕ → F :=
  let j := swapIndex i log2Size
  if i < j then
    writeAt log2PolySize (writeAt log2PolySize coeffs i (readAt log2PolySize coeffs j)) j
      (readAt log2PolySize coeffs i)
  else coeffs

/-- A butterfly of `fft_inner_serial`. -/
def serialStep (log2PolySize m : ℕ) (roots : ℕ → F) (k : ℕ) (coeffs : ℕ → ℕ → F) (j : ℕ) :
    ℕ → ℕ → F :=
  let temp := roots j * readAt log2PolySize coeffs (k + j + m)
  let coeffs' := writeAt log2PolySize coeffs (k + j + m) (readAt log2PolySize coeffs (k + j) - temp)
  writeAt log2PolySize coeffs' (k + j) (readAt log2PolySize coeffs' (k + j) + temp)

/-- The first butterflies of `fft_inner_serial`, in the array `l`. -/
def serialFirst (l : ℕ) (coeffs : ℕ → ℕ → F) (t : ℕ) : ℕ → ℕ → F :=
  let k := 2 * t
  let temp := coeffs l (k + 1)
  let row := Function.update (coeffs l) (k + 1) (coeffs l k - coeffs l (k + 1))
  Function.update coeffs l (Function.update row k (row k + temp))

/-- `fft_inner_serial`.  With one coefficient in each array the first butterflies leave it. -/
def fftInnerSerial (log2Size : ℕ) (inputRoot : F) (logPolys : ℕ) (coeffs : ℕ → ℕ → F) :
    Option (ℕ → ℕ → F) :=
  let polySize := 2 ^ log2Size / 2 ^ logPolys
  let log2PolySize := Nat.log2 polySize
  let coeffs := (List.range (2 ^ log2Size + 1)).foldl (swapStep log2PolySize log2Size) coeffs
  if polySize < 2 then none
  else
    let coeffs := (List.range (2 ^ logPolys)).foldl (fun coeffs l =>
      (List.range (polySize / 2)).foldl (serialFirst l) coeffs) coeffs
    some ((List.range' 1 (log2Size - 1)).foldl (fun coeffs r =>
      (List.range (2 ^ log2Size / (2 * 2 ^ r))).foldl (fun coeffs q =>
        (List.range (2 ^ r)).foldl (serialStep log2PolySize (2 ^ r)
          (roundRoots inputRoot (2 ^ log2Size) (r - 1)) (q * (2 * 2 ^ r))) coeffs) coeffs) coeffs)

/-! ### The transforms -/

/-- One coefficient of `scale_by_generator`: the target and `work_generator`. -/
def scaleStep (generatorShift : F) (read : (ℕ → F) → ℕ → F) (offset : ℕ) (s : (ℕ → F) × F)
    (i : ℕ) : (ℕ → F) × F :=
  (Function.update s.1 (offset + i) (read s.1 i * s.2), s.2 * generatorShift)

/-- `scale_by_generator` into `target` from `offset` on; `read` is where the coefficients are, which
may be the target itself. -/
def scaleByGenerator (D : EvaluationDomain F) (read : (ℕ → F) → ℕ → F) (offset : ℕ)
    (target : ℕ → F) (generatorStart generatorShift : F) (generatorSize : ℕ) : ℕ → F :=
  (List.range D.numThreads).foldl (fun target j =>
    let start := j * (generatorSize / D.numThreads)
    let threadShift := generatorShift ^ start
    ((List.range' start (generatorSize / D.numThreads)).foldl (scaleStep generatorShift read offset)
      (target, generatorStart * threadShift)).1) target

def inPlace (target : ℕ → F) (i : ℕ) : F := target i

def fftArrays (D : EvaluationDomain F) (logPolys : ℕ) (scratch : ℕ → F) (coeffs : ℕ → ℕ → F) :
    Option (ℕ → ℕ → F) :=
  fftInnerParallel D D.root logPolys scratch coeffs

/-- `fft` in place. -/
def fft (D : EvaluationDomain F) (scratch coeffs : ℕ → F) : Option (ℕ → F) :=
  (fftArrays D 0 scratch fun _ => coeffs).map fun result => result 0

/-- `fft` into a second array. -/
def fftInto (D : EvaluationDomain F) (coeffs target : ℕ → F) : (ℕ → F) × (ℕ → F) :=
  fftInnerInto D D.root coeffs target

def ifftArrays (D : EvaluationDomain F) (logPolys : ℕ) (scratch : ℕ → F) (coeffs : ℕ → ℕ → F) :
    Option (ℕ → ℕ → F) := do
  let coeffs ← fftInnerParallel D D.rootInverse logPolys scratch coeffs
  let log2PolySize := Nat.log2 (D.size / 2 ^ logPolys)
  return parallelLoop D.numThreads D.threadSize (fun coeffs i =>
    writeAt log2PolySize coeffs i (readAt log2PolySize coeffs i * D.domainInverse)) coeffs

/-- `ifft` in place. -/
def ifft (D : EvaluationDomain F) (scratch coeffs : ℕ → F) : Option (ℕ → F) :=
  (ifftArrays D 0 scratch fun _ => coeffs).map fun result => result 0

/-- `ifft` into a second array. -/
def ifftInto (D : EvaluationDomain F) (coeffs target : ℕ → F) : (ℕ → F) × (ℕ → F) :=
  let (coeffs, target) := fftInnerInto D D.rootInverse coeffs target
  (coeffs, parallelLoop D.numThreads D.threadSize
    (fun target i => Function.update target i (target i * D.domainInverse)) target)

def cosetFft (D : EvaluationDomain F) (scratch coeffs : ℕ → F) : Option (ℕ → F) :=
  fft D scratch (scaleByGenerator D inPlace 0 coeffs 1 D.generator D.generatorSize)

/-- `coset_fft` into a second array. -/
def cosetFftInto (D : EvaluationDomain F) (coeffs target : ℕ → F) : (ℕ → F) × (ℕ → F) :=
  let target := scaleByGenerator D (fun _ => coeffs) 0 target 1 D.generator D.generatorSize
  fftInto D coeffs target

def scaleArrays (D : EvaluationDomain F) (logPolys : ℕ) (generator : F) (coeffs : ℕ → ℕ → F) :
    ℕ → ℕ → F :=
  let polySize := D.size / 2 ^ logPolys
  let generatorPowN := generator ^ polySize
  ((List.range (2 ^ logPolys)).foldl (fun (s : (ℕ → ℕ → F) × F) i =>
    (Function.update s.1 i (scaleByGenerator D inPlace 0 (s.1 i) s.2 generator polySize),
      s.2 * generatorPowN)) (coeffs, 1)).1

def cosetFftArrays (D : EvaluationDomain F) (logPolys : ℕ) (scratch : ℕ → F)
    (coeffs : ℕ → ℕ → F) : Option (ℕ → ℕ → F) :=
  fftArrays D logPolys scratch (scaleArrays D logPolys D.generator coeffs)

def cosetIfft (D : EvaluationDomain F) (scratch coeffs : ℕ → F) : Option (ℕ → F) :=
  (ifft D scratch coeffs).map fun coeffs =>
    scaleByGenerator D inPlace 0 coeffs 1 D.generatorInverse D.size

def cosetIfftArrays (D : EvaluationDomain F) (logPolys : ℕ) (scratch : ℕ → F)
    (coeffs : ℕ → ℕ → F) : Option (ℕ → ℕ → F) :=
  (ifftArrays D logPolys scratch coeffs).map (scaleArrays D logPolys D.generatorInverse)

/-- The entries from `offset` on. -/
def slice (f : ℕ → F) (offset : ℕ) : ℕ → F := fun x => f (offset + x)

def replace (f : ℕ → F) (offset count : ℕ) (g : ℕ → F) : ℕ → F := fun y =>
  if offset ≤ y ∧ y < offset + count then g (y - offset) else f y

def cosetFftExtension (D : EvaluationDomain F) (primitiveRoot : F) (primitiveRootLogSize : ℕ)
    (logExtension : ℕ) (scratch coeffs : ℕ → F) : ℕ → F :=
  let domainExtension := 2 ^ logExtension
  let root := getRootOfUnity primitiveRoot primitiveRootLogSize (D.log2Size + logExtension)
  let cosetGenerator (i : ℕ) : F := (List.range i).foldl (fun g _ => g * root) D.generator
  let coeffs := (List.range domainExtension).reverse.foldl (fun coeffs i =>
    scaleByGenerator D inPlace (i * D.size) coeffs 1 (cosetGenerator i) D.size) coeffs
  let (coeffs, scratch) := (List.range domainExtension).foldl
    (fun (s : (ℕ → F) × (ℕ → F)) i =>
      let result := fftInnerInto D D.root (slice s.1 (i * D.size)) (slice s.2 (i * D.size))
      (replace s.1 (i * D.size) D.size result.1, replace s.2 (i * D.size) D.size result.2))
    (coeffs, scratch)
  let coeffs :=
    if domainExtension = 4 then
      parallelLoop D.numThreads D.threadSize (fun coeffs i =>
        (List.range 4).foldl (fun coeffs j =>
          Function.update coeffs ((i <<< 2) + j) (scratch (i + (j <<< D.log2Size)))) coeffs) coeffs
    else coeffs
  (List.range D.size).foldl (fun coeffs i =>
    (List.range domainExtension).foldl (fun coeffs j =>
      Function.update coeffs ((i <<< logExtension) + j) (scratch (i + (j <<< D.log2Size)))) coeffs)
    coeffs

/-! ### Reading and writing -/

theorem getLsbD_reverseWord (x : BitVec 32) {i : ℕ} (hi : i < 32) :
    (reverseWord x).getLsbD i = x.getLsbD (31 - i) := by
  unfold reverseWord
  interval_cases i <;> simp

variable {k r j y d x t : ℕ} {a s : ℕ → F}

theorem swapIndex_eq (i : ℕ) (hk : k ≤ 32) : swapIndex i k = rev k i := by
  refine Nat.eq_of_testBit_eq fun j => ?_
  rw [testBit_rev, swapIndex, BitVec.testBit_toNat, reverseBits, BitVec.getLsbD_ushiftRight]
  by_cases hj : j < k
  · rw [getLsbD_reverseWord _ (by omega), BitVec.getLsbD_ofNat, decide_eq_true hj,
      decide_eq_true (by omega)]
    congr 2
    omega
  · rw [BitVec.getLsbD_of_ge _ _ (by omega), decide_eq_false hj, Bool.false_and]

omit [Field F] in
theorem readAt_writeAt (p : ℕ) (c : ℕ → ℕ → F) (x : ℕ) (v : F) :
    readAt p (writeAt p c x v) = update (readAt p c) x v := by
  funext y
  rw [readAt, writeAt, Nat.and_two_pow_sub_one_eq_mod, Nat.and_two_pow_sub_one_eq_mod,
    Nat.shiftRight_eq_div_pow, Nat.shiftRight_eq_div_pow]
  by_cases hdiv : y / 2 ^ p = x / 2 ^ p
  · rw [hdiv, update_self]
    by_cases hmod : y % 2 ^ p = x % 2 ^ p
    · have hyx : y = x := by rw [← Nat.div_add_mod y (2 ^ p), hdiv, hmod, Nat.div_add_mod]
      rw [hmod, update_self, hyx, update_self]
    · have hyx : y ≠ x := fun h => hmod (by rw [h])
      rw [update_of_ne hmod, update_of_ne hyx, readAt,
        Nat.and_two_pow_sub_one_eq_mod, Nat.shiftRight_eq_div_pow, hdiv]
  · have hyx : y ≠ x := fun h => hdiv (by rw [h])
    rw [update_of_ne hdiv, update_of_ne hyx, readAt,
      Nat.and_two_pow_sub_one_eq_mod, Nat.shiftRight_eq_div_pow]

theorem parallelLoop_eq {σ : Type} (threads count : ℕ) (f : σ → ℕ → σ) (s : σ) :
    parallelLoop threads count f s = (range (threads * count)).foldl f s := by
  induction threads with
  | zero => rw [Nat.zero_mul]; rfl
  | succ threads ih =>
    have hrange : range ((threads + 1) * count) =
        range (threads * count) ++ range' (threads * count) count := by
      have happend := @List.range'_append_1 0 (threads * count) count
      rw [Nat.zero_add] at happend
      rw [Nat.succ_mul, range_eq_range', range_eq_range', happend]
    rw [hrange, foldl_append, ← ih, parallelLoop, range_succ, foldl_append]
    rfl

theorem tableEntry_eq (x : F) (j : ℕ) : tableEntry x j = x ^ j := by
  induction j with
  | zero => exact (pow_zero x).symm
  | succ j ih => rw [tableEntry, ih, pow_succ]

theorem roundRoots_eq (w : F) (d j : ℕ) (hr : 0 < r) :
    roundRoots w (2 ^ (r + 1 + d)) (r - 1) j = w ^ (2 ^ d * j) := by
  have hdiv : 2 ^ (r + 1 + d) / (2 * 2 ^ r) = 2 ^ d := by
    rw [show 2 * 2 ^ r = 2 ^ (r + 1) by rw [pow_succ, mul_comm], pow_add,
      Nat.mul_div_cancel_left _ (Nat.two_pow_pos _)]
  rw [roundRoots, Nat.sub_add_cancel hr, hdiv, tableEntry_eq, pow_mul]

/-! ### One round -/

theorem lowerIndex_eq (r q : ℕ) (hj : j < 2 ^ r) :
    lowerIndex (2 ^ r) (q * 2 ^ r + j) = q * 2 ^ (r + 1) + j ∧
      (q * 2 ^ r + j) &&& (2 ^ r - 1) = j := by
  have hmod : (q * 2 ^ r + j) &&& (2 ^ r - 1) = j := by
    rw [Nat.and_two_pow_sub_one_eq_mod, Nat.mul_comm, Nat.mul_add_mod, Nat.mod_eq_of_lt hj]
  refine ⟨?_, hmod⟩
  rw [lowerIndex, hmod, Nat.add_sub_cancel, Nat.shiftLeft_eq, pow_one, pow_succ, Nat.mul_assoc]

theorem entry_ne {q q' y' : ℕ} (hy : y < 2 ^ (r + 1)) (hy' : y' < 2 ^ (r + 1))
    (h : ¬(q = q' ∧ y = y')) : q * 2 ^ (r + 1) + y ≠ q' * 2 ^ (r + 1) + y' := by
  intro heq
  have hdiv := congrArg (· / 2 ^ (r + 1)) heq
  have hmod := congrArg (· % 2 ^ (r + 1)) heq
  rw [Nat.mul_comm, Nat.mul_add_div (Nat.two_pow_pos _), Nat.div_eq_of_lt hy, Nat.mul_comm q',
    Nat.mul_add_div (Nat.two_pow_pos _), Nat.div_eq_of_lt hy'] at hdiv
  rw [Nat.mul_comm, Nat.mul_add_mod, Nat.mod_eq_of_lt hy, Nat.mul_comm q', Nat.mul_add_mod,
    Nat.mod_eq_of_lt hy'] at hmod
  exact h ⟨hdiv, hmod⟩

def copyStep (m : ℕ) (roots scratch s : ℕ → F) (i : ℕ) : ℕ → F :=
  let lower := lowerIndex m i
  let temp := roots (i &&& (m - 1)) * scratch (lower + m)
  Function.update (Function.update s (lower + m) (scratch lower - temp)) lower
    (scratch lower + temp)

theorem copyStep_foldl (r : ℕ) (roots scratch s : ℕ → F) (I q : ℕ) (hj : j < 2 ^ r) :
    (range I).foldl (copyStep (2 ^ r) roots scratch) s (q * 2 ^ (r + 1) + j) =
        (if q * 2 ^ r + j < I then
          scratch (q * 2 ^ (r + 1) + j) + roots j * scratch (q * 2 ^ (r + 1) + j + 2 ^ r)
        else s (q * 2 ^ (r + 1) + j)) ∧
      (range I).foldl (copyStep (2 ^ r) roots scratch) s (q * 2 ^ (r + 1) + j + 2 ^ r) =
        (if q * 2 ^ r + j < I then
          scratch (q * 2 ^ (r + 1) + j) - roots j * scratch (q * 2 ^ (r + 1) + j + 2 ^ r)
        else s (q * 2 ^ (r + 1) + j + 2 ^ r)) := by
  induction I with
  | zero => exact ⟨(if_neg (Nat.not_lt_zero _)).symm, (if_neg (Nat.not_lt_zero _)).symm⟩
  | succ I ih =>
    obtain ⟨hlow, hhigh⟩ := ih
    have hjI : I % 2 ^ r < 2 ^ r := Nat.mod_lt _ (Nat.two_pow_pos r)
    have hI : I / 2 ^ r * 2 ^ r + I % 2 ^ r = I := by rw [Nat.mul_comm, Nat.div_add_mod]
    obtain ⟨hlower, hmask⟩ := lowerIndex_eq r (I / 2 ^ r) hjI
    rw [hI] at hlower hmask
    rw [range_succ, foldl_append, foldl_cons, foldl_nil, copyStep, hlower, hmask]
    by_cases hsame : q = I / 2 ^ r ∧ j = I % 2 ^ r
    · obtain ⟨rfl, rfl⟩ := hsame
      have hne : I / 2 ^ r * 2 ^ (r + 1) + I % 2 ^ r + 2 ^ r ≠
          I / 2 ^ r * 2 ^ (r + 1) + I % 2 ^ r := by
        have hpos := Nat.two_pow_pos r
        omega
      rw [update_self, update_of_ne hne, update_self, hI,
        if_pos (Nat.lt_succ_self I), if_pos (Nat.lt_succ_self I)]
      exact ⟨rfl, rfl⟩
    · have hindex : q * 2 ^ r + j ≠ I := by
        intro h
        refine hsame ⟨?_, ?_⟩
        · rw [← h, Nat.mul_comm, Nat.mul_add_div (Nat.two_pow_pos r), Nat.div_eq_of_lt hj,
            Nat.add_zero]
        · rw [← h, Nat.mul_comm, Nat.mul_add_mod, Nat.mod_eq_of_lt hj]
      have hiff : q * 2 ^ r + j < I + 1 ↔ q * 2 ^ r + j < I := by omega
      simp only [hiff]
      rw [Nat.add_assoc (q * 2 ^ (r + 1)) j, Nat.add_assoc (I / 2 ^ r * 2 ^ (r + 1)) (I % 2 ^ r),
        update_of_ne (entry_ne (by omega) (by omega) hsame),
        update_of_ne (entry_ne (by omega) (by omega) (by omega)),
        update_of_ne (entry_ne (by omega) (by omega) (by omega)),
        update_of_ne (entry_ne (by omega) (by omega) (by omega)), hlow, ← Nat.add_assoc, hhigh]
      exact ⟨rfl, rfl⟩

theorem butterfly_foldl (r : ℕ) (roots s : ℕ → F) (I : ℕ) :
    (range I).foldl (butterflyStep (2 ^ r) roots) s =
      (range I).foldl (copyStep (2 ^ r) roots s) s := by
  induction I with
  | zero => rfl
  | succ I ih =>
    have hjI : I % 2 ^ r < 2 ^ r := Nat.mod_lt _ (Nat.two_pow_pos r)
    have hI : I / 2 ^ r * 2 ^ r + I % 2 ^ r = I := by rw [Nat.mul_comm, Nat.div_add_mod]
    obtain ⟨hlower, -⟩ := lowerIndex_eq r (I / 2 ^ r) hjI
    rw [hI] at hlower
    obtain ⟨hlow, hhigh⟩ := copyStep_foldl r roots s s I (I / 2 ^ r) hjI
    rw [hI, if_neg (Nat.lt_irrefl I), ← hlower] at hlow hhigh
    have hne : lowerIndex (2 ^ r) I ≠ lowerIndex (2 ^ r) I + 2 ^ r := by
      have hpos := Nat.two_pow_pos r
      omega
    rw [range_succ, foldl_append, foldl_append, ih, foldl_cons, foldl_nil,
      foldl_cons, foldl_nil, butterflyStep, copyStep]
    rw [update_of_ne hne, hlow, hhigh]

/-! ### All rounds -/

theorem load_foldl {w : F} (hd : d + 1 ≤ 32) (hw : w ^ 2 ^ d = -1) (a s : ℕ → F) (t x : ℕ) :
    (range t).foldl (loadStep (d + 1) a) s x =
      if x < 2 * t then partialDft w 1 d a x else s x := by
  induction t with
  | zero => exact (if_neg (by omega)).symm
  | succ t ih =>
    have hlow : partialDft w 1 d a (2 * t) = a (rev (d + 1) (2 * t)) +
        a (rev (d + 1) (2 * t + 1)) := by
      have hstep := partialDft_low (w := w) (r := 0) (d := d) a t (j := 0) (Nat.two_pow_pos 0)
      simpa [partialDft_zero, mul_comm t 2] using hstep
    have hhigh : partialDft w 1 d a (2 * t + 1) = a (rev (d + 1) (2 * t)) -
        a (rev (d + 1) (2 * t + 1)) := by
      have hstep := partialDft_high (w := w) (r := 0) (d := d) a t (j := 0)
        (by rwa [Nat.zero_add]) (Nat.two_pow_pos 0)
      simpa [partialDft_zero, mul_comm t 2] using hstep
    rw [range_succ, foldl_append, foldl_cons, foldl_nil, loadStep,
      swapIndex_eq _ hd, swapIndex_eq _ hd, ← hlow, ← hhigh]
    by_cases h₀ : x = 2 * t
    · rw [h₀, update_self, if_pos (by omega)]
    · rw [update_of_ne h₀]
      by_cases h₁ : x = 2 * t + 1
      · rw [h₁, update_self, if_pos (by omega)]
      · rw [update_of_ne h₁, ih]
        by_cases hx : x < 2 * t
        · rw [if_pos hx, if_pos (by omega)]
        · rw [if_neg hx, if_neg (by omega)]

theorem copyStep_round {w : F} (hw : w ^ 2 ^ (r + d) = -1) {roots : ℕ → F}
    (hroots : ∀ j < 2 ^ r, roots j = w ^ (2 ^ d * j))
    (hs : ∀ x < 2 ^ (r + 1 + d), s x = partialDft w r (d + 1) a x) (t : ℕ → F)
    (hx : x < 2 ^ (r + 1 + d)) : (range (2 ^ (r + d))).foldl (copyStep (2 ^ r) roots s) t x =
      partialDft w (r + 1) d a x := by
  have hy : x % 2 ^ (r + 1) < 2 ^ (r + 1) := Nat.mod_lt _ (Nat.two_pow_pos _)
  have hsplit : x / 2 ^ (r + 1) * 2 ^ (r + 1) + x % 2 ^ (r + 1) = x := by
    rw [Nat.mul_comm, Nat.div_add_mod]
  have hq : x / 2 ^ (r + 1) < 2 ^ d := by
    rw [Nat.div_lt_iff_lt_mul (Nat.two_pow_pos _), ← pow_add, Nat.add_comm d]
    exact hx
  generalize x / 2 ^ (r + 1) = q at hsplit hq
  generalize x % 2 ^ (r + 1) = y at hsplit hy
  have hblock : (q + 1) * 2 ^ (r + 1) ≤ 2 ^ (r + 1 + d) := by
    rw [Nat.add_comm (r + 1), pow_add 2 d]
    exact Nat.mul_le_mul_right _ hq
  have hindex : ∀ j < 2 ^ r, q * 2 ^ r + j < 2 ^ (r + d) := by
    intro j hj
    have hle : (q + 1) * 2 ^ r ≤ 2 ^ (r + d) := by
      rw [Nat.add_comm r, pow_add]
      exact Nat.mul_le_mul_right _ hq
    rw [Nat.succ_mul] at hle
    omega
  rw [Nat.succ_mul] at hblock
  by_cases hlow : y < 2 ^ r
  · rw [← hsplit, (copyStep_foldl r _ s t (2 ^ (r + d)) q hlow).1, if_pos (hindex y hlow),
      hroots y hlow, partialDft_low a q hlow, hs _ (by omega), hs _ (by omega)]
  · obtain ⟨j, rfl⟩ : ∃ j, y = j + 2 ^ r := ⟨y - 2 ^ r, by omega⟩
    have hj : j < 2 ^ r := by omega
    rw [← hsplit, ← Nat.add_assoc, (copyStep_foldl r _ s t (2 ^ (r + d)) q hj).2,
      if_pos (hindex j hj), hroots j hj, partialDft_high a q hw hj, hs _ (by omega),
      hs _ (by omega)]

theorem rounds_foldl {w : F} (hw : w ^ 2 ^ (k - 1) = -1)
    (hs : ∀ x < 2 ^ k, s x = partialDft w 1 (k - 1) a x) (R : ℕ) (hR : R < k) :
    ∀ x < 2 ^ k, (range' 1 R).foldl (fun target r => (range (2 ^ (k - 1))).foldl
      (butterflyStep (2 ^ r) (roundRoots w (2 ^ k) (r - 1))) target) s x =
        partialDft w (R + 1) (k - 1 - R) a x := by
  induction R with
  | zero => exact hs
  | succ R ih =>
    intro x hx
    obtain ⟨d, rfl⟩ : ∃ d, k = R + 1 + 1 + d := ⟨k - R - 2, by omega⟩
    have hprev := ih (by omega)
    rw [show R + 1 + 1 + d - 1 - R = d + 1 by omega] at hprev
    rw [range'_1_concat, foldl_append, foldl_cons, foldl_nil,
      show R + 1 + 1 + d - 1 - (R + 1) = d by omega, Nat.add_comm 1 R, butterfly_foldl,
      show R + 1 + 1 + d - 1 = R + 1 + d by omega]
    rw [show R + 1 + 1 + d - 1 = R + 1 + d by omega] at hprev hw
    exact copyStep_round hw (fun j _ => roundRoots_eq w d j (Nat.succ_pos R)) hprev _ hx

/-! ### The threads -/

/-- The loops of a domain cover its indices, and the threads are a power of two. -/
structure Covered (D : EvaluationDomain F) : Prop where
  log2Size_pos : 0 < D.log2Size
  log2Size_le : D.log2Size ≤ 32
  halves : D.numThreads * (D.threadSize / 2) = 2 ^ (D.log2Size - 1)
  all : D.numThreads * D.threadSize = 2 ^ D.log2Size
  threads : ∃ t < D.log2Size, D.numThreads = 2 ^ t

omit [Field F] in
theorem covered_of_threads {D : EvaluationDomain F} (ht : t < D.log2Size) (hle : D.log2Size ≤ 32)
    (hthreads : D.numThreads = 2 ^ t) : Covered D := by
  have hsize : D.threadSize = 2 ^ (D.log2Size - t) := by
    rw [EvaluationDomain.threadSize, EvaluationDomain.size, hthreads,
      Nat.pow_div (le_of_lt ht) Nat.two_pos]
  have hhalf : D.threadSize / 2 = 2 ^ (D.log2Size - t - 1) := by
    have hpow := Nat.pow_div (show 1 ≤ D.log2Size - t by omega) Nat.two_pos
    rwa [pow_one, ← hsize] at hpow
  refine ⟨by omega, hle, ?_, ?_, t, ht, hthreads⟩
  · rw [hthreads, hhalf, ← pow_add]
    congr 1
    omega
  · rw [hthreads, hsize, ← pow_add]
    congr 1
    omega

theorem covered_make (cpus : ℕ) (primitiveRoot cosetGenerator : F) (adicity gs : ℕ) (hk : 0 < k)
    (hle : k ≤ 32) :
    Covered (EvaluationDomain.make cpus primitiveRoot adicity cosetGenerator k gs) := by
  by_cases hsmall : 2 ^ k ≤ 2 ^ Nat.log2 cpus * 4
  · refine covered_of_threads (t := 0) hk hle ?_
    exact if_pos hsmall
  · have hlt : 2 ^ Nat.log2 cpus < 2 ^ k := by omega
    refine covered_of_threads (t := Nat.log2 cpus)
      ((Nat.pow_lt_pow_iff_right (by omega)).1 hlt) hle ?_
    exact if_neg hsmall

/-! ### The transforms without scaling -/

section Transforms

variable {D : EvaluationDomain F} {w : F}

theorem fftInnerInto_eq (hD : Covered D) (hw : w ^ 2 ^ (D.log2Size - 1) = -1)
    (coeffs target : ℕ → F) {x : ℕ} (hx : x < D.size) :
    (fftInnerInto D w coeffs target).2 x = dft w D.size coeffs x := by
  have hk := hD.log2Size_pos
  have hload : ∀ y < 2 ^ D.log2Size, parallelLoop D.numThreads (D.threadSize / 2)
      (loadStep D.log2Size coeffs) target y = partialDft w 1 (D.log2Size - 1) coeffs y := by
    intro y hy
    have hlast : D.log2Size - 1 + 1 = D.log2Size := Nat.sub_add_cancel hk
    have hfold := load_foldl (d := D.log2Size - 1) (by rw [hlast]; exact hD.log2Size_le) hw coeffs
      target (2 ^ (D.log2Size - 1)) y
    rw [hlast, ← pow_succ', hlast, if_pos hy] at hfold
    rw [parallelLoop_eq, hD.halves, hfold]
  have hrounds := rounds_foldl hw hload (D.log2Size - 1) (by omega) x hx
  rw [Nat.sub_self, Nat.sub_add_cancel hk, partialDft_all w _ _ hx] at hrounds
  rw [fftInnerInto]
  simp only [parallelLoop_eq, hD.halves] at hrounds ⊢
  exact hrounds

theorem log2_polySize {k l : ℕ} (hl : l ≤ k) : Nat.log2 (2 ^ k / 2 ^ l) = k - l := by
  rw [Nat.pow_div hl Nat.two_pos, Nat.log2_two_pow]

theorem lastStep_foldl (p m : ℕ) (roots scratch : ℕ → F) (c : ℕ → ℕ → F) (l : List ℕ) :
    readAt p (l.foldl (lastStep p m roots scratch) c) =
      l.foldl (copyStep m roots scratch) (readAt p c) := by
  refine (foldl_hom (readAt p) fun c i => ?_).symm
  rw [lastStep, readAt_writeAt, readAt_writeAt]
  rfl

theorem roundStep_foldl (hD : Covered D) (p : ℕ) (scratch : ℕ → F) (c : ℕ → ℕ → F) (R : ℕ)
    (hR : R < D.log2Size - 1) : (range' 1 R).foldl (roundStep D w p) (scratch, c) =
      ((range' 1 R).foldl (fun target r => (range (2 ^ (D.log2Size - 1))).foldl
        (butterflyStep (2 ^ r) (roundRoots w (2 ^ D.log2Size) (r - 1))) target) scratch, c) := by
  induction R with
  | zero => rfl
  | succ R ih =>
    have hne : 2 ^ (1 + R) ≠ D.size / 2 := by
      have hpow := Nat.pow_div (show 1 ≤ D.log2Size by omega) Nat.two_pos
      rw [pow_one] at hpow
      rw [EvaluationDomain.size, hpow]
      exact fun h => absurd (Nat.pow_right_injective le_rfl h) (by omega)
    rw [range'_1_concat, foldl_append, ih (by omega), foldl_append, foldl_cons, foldl_nil,
      foldl_cons, foldl_nil, roundStep, if_pos hne, parallelLoop_eq, hD.halves]
    rfl

theorem fftInnerParallel_eq (hD : Covered D) (hw : w ^ 2 ^ (D.log2Size - 1) = -1) {l : ℕ}
    (hl : l ≤ D.log2Size) (hsmall : ¬(D.log2Size = 1 ∧ l = 1)) (scratch : ℕ → F) (c : ℕ → ℕ → F) :
    ∃ c', fftInnerParallel D w l scratch c = some c' ∧ ∀ x < D.size,
      readAt (D.log2Size - l) c' x = dft w D.size (readAt (D.log2Size - l) c) x := by
  have hk := hD.log2Size_pos
  have hlast : D.log2Size - 1 + 1 = D.log2Size := Nat.sub_add_cancel hk
  obtain ⟨loaded, hloaded⟩ : ∃ s, parallelLoop D.numThreads (D.threadSize / 2)
      (loadStep D.log2Size (readAt (D.log2Size - l) c)) scratch = s := ⟨_, rfl⟩
  have hload : ∀ y < 2 ^ D.log2Size, loaded y =
      partialDft w 1 (D.log2Size - 1) (readAt (D.log2Size - l) c) y := by
    intro y hy
    have hfold := load_foldl (d := D.log2Size - 1) (by rw [hlast]; exact hD.log2Size_le) hw
      (readAt (D.log2Size - l) c) scratch (2 ^ (D.log2Size - 1)) y
    rw [hlast, ← pow_succ', hlast, if_pos hy] at hfold
    rw [← hloaded, parallelLoop_eq, hD.halves, hfold]
  rw [fftInnerParallel, EvaluationDomain.size, log2_polySize hl, hloaded]
  by_cases hone : D.log2Size = 1
  · have hl₀ : l = 0 := by omega
    subst hl₀
    rw [hone] at hload ⊢
    refine ⟨_, rfl, fun x hx => ?_⟩
    have hpartial : partialDft w 1 0 (readAt 1 c) x = dft w (2 ^ 1) (readAt 1 c) x :=
      partialDft_all w 1 _ hx
    rw [← hpartial, ← hload x hx]
    have hx : x = 0 ∨ x = 1 := by omega
    rcases hx with rfl | rfl
    · rfl
    · rfl
  · have hlarge : ¬2 ^ D.log2Size ≤ 2 := by
      have hlt := Nat.pow_lt_pow_right (show 1 < 2 by omega) (show 1 < D.log2Size by omega)
      omega
    rw [if_neg hlarge]
    refine ⟨_, rfl, fun x hx => ?_⟩
    obtain ⟨R, hR⟩ : ∃ R, D.log2Size = R + 2 := ⟨D.log2Size - 2, by omega⟩
    have hrounds := rounds_foldl hw hload R (by omega)
    have hdvd : D.size / 2 = 2 ^ (1 + R) := by
      rw [EvaluationDomain.size, hR, show R + 2 = 1 + R + 1 by omega, pow_succ,
        Nat.mul_div_cancel _ Nat.two_pos]
    have hround := copyStep_round (w := w) (r := R + 1) (d := 0) (a := readAt (D.log2Size - l) c)
      (s := (range' 1 R).foldl (fun target r => (range (2 ^ (D.log2Size - 1))).foldl
        (butterflyStep (2 ^ r) (roundRoots w (2 ^ D.log2Size) (r - 1))) target) loaded)
      (by rw [← hw, hR]; rfl) (fun j _ => roundRoots_eq w 0 j (Nat.succ_pos R)) (by
        intro y hy
        rw [hrounds y (by rw [hR]; exact hy), hR, show R + 2 - 1 - R = 0 + 1 by omega])
      (readAt (D.log2Size - l) c) (x := x)
      (by rw [← show D.log2Size = R + 1 + 1 + 0 from hR]; exact hx)
    rw [← partialDft_all w _ _ hx, show D.log2Size - 1 = R + 1 by omega, range'_1_concat,
      foldl_append, roundStep_foldl hD _ _ _ R (by omega), foldl_cons, foldl_nil,
      roundStep, if_neg (not_not_intro hdvd.symm)]
    dsimp only
    rw [parallelLoop_eq, hD.halves, lastStep_foldl, EvaluationDomain.size, Nat.add_comm 1 R]
    rw [hR] at hround ⊢
    exact hround

theorem fftInnerParallel_eq_none (hone : D.log2Size = 1) (scratch : ℕ → F) (c : ℕ → ℕ → F) :
    fftInnerParallel D w 1 scratch c = none := by
  rw [fftInnerParallel, EvaluationDomain.size, hone]
  rfl

end Transforms

/-! ### The serial transform -/

omit [Field F] in
theorem swapStep_foldl (p : ℕ) (hk : k ≤ 32) (c : ℕ → ℕ → F) (I : ℕ) (hx : x < 2 ^ k) :
    readAt p ((range I).foldl (swapStep p k) c) x =
      if x < I ∨ rev k x < I then readAt p c (rev k x) else readAt p c x := by
  induction I generalizing x with
  | zero => exact (if_neg (by omega)).symm
  | succ I ih =>
    have hrev := rev_lt k I
    rw [range_succ, foldl_append, foldl_cons, foldl_nil, swapStep, swapIndex_eq _ hk]
    by_cases hswap : I < rev k I
    · have hI : I < 2 ^ k := by omega
      have hinv := rev_rev hI
      have hfirst := ih hI
      have hsecond := ih hrev
      rw [if_neg (by omega)] at hfirst
      rw [hinv, if_neg (by omega)] at hsecond
      rw [if_pos hswap, readAt_writeAt, readAt_writeAt, hfirst, hsecond]
      by_cases hj : x = rev k I
      · rw [hj, update_self, hinv, if_pos (by omega)]
      · rw [update_of_ne hj]
        by_cases hi : x = I
        · rw [hi, update_self, if_pos (by omega)]
        · have hne : rev k x ≠ I := by
            intro h
            exact hj (by rw [← h, rev_rev hx])
          rw [update_of_ne hi, ih hx]
          by_cases hcase : x < I ∨ rev k x < I
          · rw [if_pos hcase, if_pos (by omega)]
          · rw [if_neg hcase, if_neg (by omega)]
    · rw [if_neg hswap, ih hx]
      by_cases hcase : x < I ∨ rev k x < I
      · rw [if_pos hcase, if_pos (by omega)]
      · rw [if_neg hcase]
        by_cases hnew : x < I + 1 ∨ rev k x < I + 1
        · have hfix : rev k x = x := by
            by_cases hi : x = I
            · subst hi
              omega
            · have hxI : rev k x = I := by omega
              have hback := rev_rev hx
              rw [hxI] at hback
              omega
          rw [if_pos hnew, hfix]
        · rw [if_neg hnew]

omit [Field F] in
theorem nested_foldl (p T c : ℕ) (g : ℕ → (ℕ → ℕ → F) → ℕ → (ℕ → ℕ → F)) (f : (ℕ → F) → ℕ → (ℕ → F))
    (h : ∀ q < T, ∀ s, ∀ j < c, readAt p (g q s j) = f (readAt p s) (q * c + j)) (s : ℕ → ℕ → F) :
    readAt p ((range T).foldl (fun s q => (range c).foldl (g q) s) s) =
      (range (T * c)).foldl f (readAt p s) := by
  have hinner : ∀ q < T, ∀ m ≤ c, ∀ s, readAt p ((range m).foldl (g q) s) =
      (range' (q * c) m).foldl f (readAt p s) := by
    intro q hq m hm s
    induction m with
    | zero => rfl
    | succ m ih =>
      rw [range_succ, foldl_append, foldl_cons, foldl_nil,
        h q hq _ m (by omega), ih (by omega), range'_1_concat, foldl_append]
      rfl
  rw [← parallelLoop_eq, parallelLoop]
  have houter : ∀ n ≤ T, readAt p ((range n).foldl (fun s q => (range c).foldl (g q) s) s) =
      (range n).foldl (fun s q => (range' (q * c) c).foldl f s) (readAt p s) := by
    intro n hn
    induction n with
    | zero => rfl
    | succ n ih =>
      rw [range_succ, foldl_append, foldl_append, foldl_cons, foldl_nil,
        hinner n (by omega) c le_rfl, ih (by omega)]
      rfl
  exact houter T le_rfl

omit [Field F] in
theorem writeAt_entry (p l : ℕ) (c : ℕ → ℕ → F) (hy : y < 2 ^ p) (v : F) :
    writeAt p c (l * 2 ^ p + y) v = update c l (update (c l) y v) := by
  have hdiv : (l * 2 ^ p + y) / 2 ^ p = l := by
    rw [Nat.mul_comm, Nat.mul_add_div (Nat.two_pow_pos p), Nat.div_eq_of_lt hy, Nat.add_zero]
  have hmod : (l * 2 ^ p + y) % 2 ^ p = y := by
    rw [Nat.mul_comm, Nat.mul_add_mod, Nat.mod_eq_of_lt hy]
  rw [writeAt, Nat.and_two_pow_sub_one_eq_mod, Nat.shiftRight_eq_div_pow, hdiv, hmod]

omit [Field F] in
theorem readAt_entry (p l : ℕ) (c : ℕ → ℕ → F) (hy : y < 2 ^ p) :
    readAt p c (l * 2 ^ p + y) = c l y := by
  have hdiv : (l * 2 ^ p + y) / 2 ^ p = l := by
    rw [Nat.mul_comm, Nat.mul_add_div (Nat.two_pow_pos p), Nat.div_eq_of_lt hy, Nat.add_zero]
  have hmod : (l * 2 ^ p + y) % 2 ^ p = y := by
    rw [Nat.mul_comm, Nat.mul_add_mod, Nat.mod_eq_of_lt hy]
  rw [readAt, Nat.and_two_pow_sub_one_eq_mod, Nat.shiftRight_eq_div_pow, hdiv, hmod]

theorem readAt_serialFirst {p : ℕ} (l : ℕ) (c : ℕ → ℕ → F) (ht : 2 * t + 1 < 2 ^ (p + 1)) :
    readAt (p + 1) (serialFirst l c t) =
      butterflyStep (2 ^ 0) (fun _ => 1) (readAt (p + 1) c) (l * 2 ^ p + t) := by
  have hx : l * 2 ^ (p + 1) + 2 * t + 1 = l * 2 ^ (p + 1) + (2 * t + 1) := Nat.add_assoc _ _ _
  have hlower : lowerIndex (2 ^ 0) (l * 2 ^ p + t) = l * 2 ^ (p + 1) + 2 * t := by
    have hindex := (lowerIndex_eq 0 (l * 2 ^ p + t) (j := 0) Nat.one_pos).1
    rw [pow_zero, Nat.mul_one, Nat.add_zero, Nat.add_zero, Nat.zero_add, pow_one] at hindex
    rw [pow_zero, hindex, pow_succ]
    ring
  have hwrites : serialFirst l c t =
      writeAt (p + 1) (writeAt (p + 1) c (l * 2 ^ (p + 1) + (2 * t + 1)) (c l (2 * t) -
        c l (2 * t + 1))) (l * 2 ^ (p + 1) + 2 * t) (c l (2 * t) + c l (2 * t + 1)) := by
    rw [writeAt_entry (p + 1) l _ ht, writeAt_entry (p + 1) l _ (by omega), update_idem,
      update_self, serialFirst, update_of_ne (show 2 * t ≠ 2 * t + 1 by omega)]
  rw [hwrites, readAt_writeAt, readAt_writeAt, butterflyStep, hlower, pow_zero, hx,
    readAt_entry _ _ _ ht, readAt_entry _ _ _ (by omega), one_mul,
    update_of_ne (show l * 2 ^ (p + 1) + 2 * t ≠ l * 2 ^ (p + 1) + (2 * t + 1) by omega),
    readAt_entry _ _ _ (by omega)]

theorem readAt_serialStep (p r q : ℕ) (roots : ℕ → F) (c : ℕ → ℕ → F) (hj : j < 2 ^ r) :
    readAt p (serialStep p (2 ^ r) roots (q * (2 * 2 ^ r)) c j) =
      butterflyStep (2 ^ r) roots (readAt p c) (q * 2 ^ r + j) := by
  obtain ⟨hlower, hmask⟩ := lowerIndex_eq r q hj
  rw [← pow_succ', serialStep, butterflyStep, hlower, hmask]
  simp only [readAt_writeAt]

theorem serialRounds_foldl (p : ℕ) (roots : ℕ → ℕ → F) (c : ℕ → ℕ → F) (R : ℕ) (hR : R < k) :
    readAt p ((range' 1 R).foldl (fun c r =>
        (range (2 ^ k / (2 * 2 ^ r))).foldl (fun c q =>
          (range (2 ^ r)).foldl (serialStep p (2 ^ r) (roots r) (q * (2 * 2 ^ r))) c) c) c) =
      (range' 1 R).foldl (fun s r => (range (2 ^ (k - 1))).foldl
        (butterflyStep (2 ^ r) (roots r)) s) (readAt p c) := by
  induction R with
  | zero => rfl
  | succ R ih =>
    have hcount : 2 ^ k / (2 * 2 ^ (1 + R)) * 2 ^ (1 + R) = 2 ^ (k - 1) := by
      rw [← pow_succ', Nat.pow_div (by omega) Nat.two_pos, ← pow_add]
      congr 1
      omega
    rw [range'_1_concat, foldl_append, foldl_append, foldl_cons, foldl_nil,
      foldl_cons, foldl_nil, ← ih (by omega),
      nested_foldl p _ _ _ (butterflyStep (2 ^ (1 + R)) (roots (1 + R)))
        fun q _ s j hj => readAt_serialStep p (1 + R) q _ s hj, hcount]

theorem fftInnerSerial_eq {l : ℕ} (hk : k ≤ 32) {w : F} (hw : w ^ 2 ^ (k - 1) = -1) (hl : l < k)
    (c : ℕ → ℕ → F) : ∃ c', fftInnerSerial k w l c = some c' ∧ ∀ x < 2 ^ k,
      readAt (k - l) c' x = dft w (2 ^ k) (readAt (k - l) c) x := by
  obtain ⟨p, hp⟩ : ∃ p, k - l = p + 1 := ⟨k - l - 1, by omega⟩
  have hpoly : 2 ^ k / 2 ^ l = 2 ^ (p + 1) := by rw [Nat.pow_div hl.le Nat.two_pos, hp]
  have hhalf : 2 ^ (p + 1) / 2 = 2 ^ p := by rw [pow_succ, Nat.mul_div_cancel _ Nat.two_pos]
  have hpos := Nat.two_pow_pos p
  have hlarge : ¬2 ^ (p + 1) < 2 := by rw [pow_succ]; omega
  have hcount : 2 ^ l * 2 ^ p = 2 ^ (k - 1) := by
    rw [← pow_add]
    congr 1
    omega
  have hlast : 0 + 1 + (k - 1) = k := by omega
  rw [fftInnerSerial, hpoly, Nat.log2_two_pow, if_neg hlarge, hhalf, hp]
  refine ⟨_, rfl, fun x hx => ?_⟩
  obtain ⟨swapped, hswapped⟩ : ∃ s, (range (2 ^ k + 1)).foldl (swapStep (p + 1) k) c = s :=
    ⟨_, rfl⟩
  have hswap : ∀ y < 2 ^ k, readAt (p + 1) swapped y =
      partialDft w 0 (k - 1 + 1) (readAt (p + 1) c) y := by
    intro y hy
    rw [← hswapped, swapStep_foldl _ hk _ _ hy, if_pos (Or.inl (by omega)), partialDft_zero,
      Nat.sub_add_cancel (by omega)]
  have hone : ∀ j < 2 ^ 0, (fun _ : ℕ => (1 : F)) j = w ^ (2 ^ (k - 1) * j) := by
    intro j hj
    rw [show j = 0 by omega, Nat.mul_zero, pow_zero]
  have hfirst : ∀ y < 2 ^ k, readAt (p + 1) ((range (2 ^ l)).foldl (fun c l =>
      (range (2 ^ p)).foldl (serialFirst l) c) swapped) y =
        partialDft w 1 (k - 1) (readAt (p + 1) c) y := by
    intro y hy
    rw [nested_foldl (p + 1) _ _ _ (butterflyStep (2 ^ 0) fun _ => 1)
      fun q _ s j hj => readAt_serialFirst q s (by rw [pow_succ]; omega), hcount, butterfly_foldl]
    have hround := copyStep_round (w := w) (r := 0) (d := k - 1)
      (by rw [Nat.zero_add]; exact hw) hone
      (fun z hz => hswap z (by rwa [hlast] at hz)) (readAt (p + 1) swapped)
      (x := y) (by rw [hlast]; exact hy)
    rw [Nat.zero_add] at hround
    exact hround
  have hrounds := rounds_foldl hw hfirst (k - 1) (by omega) x hx
  rw [Nat.sub_self, Nat.sub_add_cancel (by omega), partialDft_all w _ _ hx] at hrounds
  rw [hswapped, serialRounds_foldl (p + 1) (fun r => roundRoots w (2 ^ k) (r - 1)) _ (k - 1)
    (by omega)]
  exact hrounds

theorem fftInnerSerial_eq_none (k : ℕ) (w : F) (c : ℕ → ℕ → F) : fftInnerSerial k w k c = none := by
  rw [fftInnerSerial, Nat.div_self (Nat.two_pow_pos k)]
  rfl

end FftVariants
