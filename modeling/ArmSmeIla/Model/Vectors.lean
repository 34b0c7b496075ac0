import ArmSmeIla.Foundation.Loops
import ArmSmeIla.Foundation.Packing
import ArmSmeIla.Model.State

/-!
# Vector, predicate and register helpers

The helpers of `arm.cc` that do not touch a memory: element extraction and
insertion, `Concatenate`, predicate bits, masking, and the register files. An
ILA expression carries its width in its sort; here the width is in the type,
and a `cast` stands where the source asserts `bit_width()`.
-/

namespace ArmSmeIla

open Packing

variable {w e : ℕ}

/-! ## Elements of a vector -/

/-- Rightmost element is index 0. -/
def getElementInVectorFromLSB (vector : BitVec w) (idx elementSizeBits : ℕ) :
    BitVec elementSizeBits :=
  let rightmostIdx := idx * elementSizeBits
  vector.extractLsb' rightmostIdx elementSizeBits

/-- Leftmost element is index 0. -/
def getElementInVectorFromMSB (vector : BitVec w)
    (idx elementSizeBits vectorLengthBits : ℕ) : BitVec elementSizeBits :=
  let mirroredIdx := vectorLengthBits / elementSizeBits - 1 - idx
  getElementInVectorFromLSB vector mirroredIdx elementSizeBits

@[simp]
theorem getElementInVectorFromLSB_eq (vector : BitVec w) (idx : ℕ) :
    getElementInVectorFromLSB vector idx e = elem vector idx e := rfl

/-- Concatenates, left to right, a list of elements. The source throws on the
empty list; no caller passes one, since every vector has an element. -/
def concatenate (elements : List (BitVec e)) : BitVec (elements.length * e) :=
  concat elements

/-- The idiom of the source's loops: `push_back` the elements `f 0, …`,
`std::reverse` the list, then `Concatenate` it. -/
def concatenateFromLSB {n : ℕ} (h : n * e = w) (f : ℕ → BitVec e) : BitVec w :=
  (concatenate ((List.range n).map f).reverse).cast (by simpa using h)

@[simp]
theorem elem_concatenateFromLSB {n : ℕ} (h : n * e = w) (f : ℕ → BitVec e) {i : ℕ}
    (hi : i < n) : elem (concatenateFromLSB h f) i e = f i := by
  have hlen : i < ((List.range n).map f).length := by simpa using hi
  rw [concatenateFromLSB, elem_cast, concatenate, elem_concat_reverse _ hlen]
  simp

/-- New vector where the element at `idx` is replaced. The source throws when
the vector has no element of that size. -/
def setElementInVectorFromLSB (vector : BitVec w) (idx elementSizeBits : ℕ)
    (newElement : BitVec elementSizeBits) : BitVec w :=
  let numElements := w / elementSizeBits
  let rightmostIdx := idx * elementSizeBits
  -- a single element fills the entire vector
  if numElements = 1 then
    newElement.setWidth w
  -- leftmost
  else if idx = numElements - 1 then
    (newElement ++ vector.extractLsb' 0 rightmostIdx).setWidth w
  -- rightmost
  else if idx = 0 then
    (vector.extractLsb' elementSizeBits (w - elementSizeBits) ++ newElement).setWidth w
  else
    let left := vector.extractLsb' (rightmostIdx + elementSizeBits)
      (w - (rightmostIdx + elementSizeBits))
    let right := vector.extractLsb' 0 rightmostIdx
    (left ++ newElement ++ right).setWidth w

/-- The bits of the vector after a set, in all four cases of the source. -/
theorem getLsbD_setElementInVectorFromLSB {n : ℕ} (hw : w = n * e) (he : 0 < e)
    (vector : BitVec w) {i p : ℕ} (hi : i < n) (hp : p < w) (x : BitVec e) :
    (setElementInVectorFromLSB vector i e x).getLsbD p =
      if i * e ≤ p ∧ p < i * e + e then x.getLsbD (p - i * e) else vector.getLsbD p := by
  subst hw
  have hdiv : n * e / e = n := Nat.mul_div_cancel n he
  have hupper := offset_next_le hi e
  simp only [setElementInVectorFromLSB, hdiv]
  by_cases hone : n = 1
  · -- one element: it is the whole vector
    have hi0 : i * e = 0 := by rw [show i = 0 by omega, Nat.zero_mul]
    rw [if_pos hone, hi0, if_pos (by rw [hone] at hp; omega), BitVec.getLsbD_setWidth,
      decide_eq_true hp, Bool.true_and, Nat.sub_zero]
  rw [if_neg hone]
  by_cases hlast : i = n - 1
  · -- leftmost: nothing above it
    have htop : i * e + e = n * e := by rw [hlast, offset_last (by omega)]
    rw [if_pos hlast, BitVec.getLsbD_setWidth, decide_eq_true hp, Bool.true_and,
      BitVec.getLsbD_append]
    by_cases h : p < i * e
    · rw [if_pos h, if_neg (by omega), BitVec.getLsbD_extractLsb', decide_eq_true h,
        Bool.true_and, Nat.zero_add]
    · rw [if_neg h, if_pos (by omega)]
  rw [if_neg hlast]
  by_cases hzero : i = 0
  · -- rightmost: nothing below it
    subst hzero
    rw [if_pos rfl, BitVec.getLsbD_setWidth, decide_eq_true hp, Bool.true_and,
      BitVec.getLsbD_append]
    simp only [Nat.zero_mul, Nat.zero_add, Nat.zero_le, true_and, Nat.sub_zero]
    by_cases h : p < e
    · rw [if_pos h, if_pos h]
    · rw [if_neg h, if_neg h, BitVec.getLsbD_extractLsb', decide_eq_true (by omega),
        Bool.true_and, Nat.add_sub_cancel' (by omega)]
  rw [if_neg hzero, BitVec.getLsbD_setWidth, decide_eq_true hp, Bool.true_and,
    BitVec.getLsbD_append, BitVec.getLsbD_append]
  by_cases h : p < i * e
  · rw [if_pos h, if_neg (by omega), BitVec.getLsbD_extractLsb', decide_eq_true h,
      Bool.true_and, Nat.zero_add]
  · by_cases h' : p < i * e + e
    · rw [if_neg h, if_pos (by omega), if_pos (by omega)]
    · have hidx : i * e + e + (p - i * e - e) = p := by omega
      rw [if_neg h, if_neg (by omega), if_neg (by omega), BitVec.getLsbD_extractLsb', hidx,
        decide_eq_true (by omega), Bool.true_and]

/-- Setting element `i` changes that element only. -/
theorem elem_setElementInVectorFromLSB {n : ℕ} (hw : w = n * e) (he : 0 < e)
    (vector : BitVec w) {i j : ℕ} (hi : i < n) (hj : j < n) (x : BitVec e) :
    elem (setElementInVectorFromLSB vector i e x) j e =
      if j = i then x else elem vector j e := by
  apply BitVec.eq_of_getLsbD_eq
  intro k hk
  rw [getLsbD_elem, decide_eq_true hk, Bool.true_and,
    getLsbD_setElementInVectorFromLSB hw he vector hi (hw ▸ offset_lt hj hk) x]
  by_cases h : j = i
  · subst h
    rw [if_pos rfl, if_pos (by omega), Nat.add_sub_cancel_left]
  · rw [if_neg h, getLsbD_elem, decide_eq_true hk, Bool.true_and, if_neg]
    rintro ⟨hle, hlt⟩
    -- bit `j * e + k` inside element `i` would make the two indices equal
    have hin : j * e + k = i * e + (j * e + k - i * e) := by omega
    exact h (offset_inj hk (by omega) hin).1

/-- Replacing element after element in place replaces each of them once. -/
theorem elem_foldl_setElement {n : ℕ} (hw : w = n * e) (he : 0 < e) (g : ℕ → BitVec e → BitVec e)
    (vector : BitVec w) {j : ℕ} (hj : j < n) :
    elem ((List.range n).foldl (fun vector i => setElementInVectorFromLSB vector i e
      (g i (getElementInVectorFromLSB vector i e))) vector) j e = g j (elem vector j e) := by
  refine Loops.foldl_once (fun vector : BitVec w => elem vector j e) (g j) List.nodup_range
    (List.mem_range.mpr hj) ?_ ?_ vector
  · intro vector
    rw [elem_setElementInVectorFromLSB hw he vector hj hj, if_pos rfl, getElementInVectorFromLSB_eq]
  · intro i hi hne vector
    rw [elem_setElementInVectorFromLSB hw he vector (List.mem_range.mp hi) hj, if_neg hne.symm]

/-! ## Predicates -/

/-- Bit `idx * (esize / BYTE)` of the mask, as a one-bit vector. -/
def getPredBitFromLSB (mask : BitVec w) (idx elementSizeBits : ℕ) : BitVec 1 :=
  let actualIdx := idx * (elementSizeBits / 8)
  mask.extractLsb' actualIdx 1

/-- `GetPredBitFromLSB(mask, idx, esize) != 0`. -/
def isActivated (mask : BitVec w) (idx elementSizeBits : ℕ) : Bool :=
  getPredBitFromLSB mask idx elementSizeBits != 0#1

@[simp]
theorem isActivated_eq (mask : BitVec w) (idx elementSizeBits : ℕ) :
    isActivated mask idx elementSizeBits = mask.getLsbD (idx * (elementSizeBits / 8)) := by
  have hbit : ∀ x : BitVec 1, (x != 0#1) = x.getLsbD 0 := by decide
  rw [isActivated, getPredBitFromLSB, hbit, BitVec.getLsbD_extractLsb']
  simp

section Machine

variable {m : ArmSme}

/-- OR of the predicate bits of all elements. -/
def isAnyPredActive (mask : BitVec m.pRegWidth) (esize : ElementSize) : BitVec 1 :=
  let elements := m.dim esize
  (List.range' 1 (elements - 1)).foldl
    (fun bit i => bit ||| getPredBitFromLSB mask i esize.bits)
    (getPredBitFromLSB mask 0 esize.bits)

/-- The predicate bit of a run-time index: a chain of `Ite` over all elements. -/
def getPredBitFromLSBAt (mask : BitVec m.pRegWidth) (idx : BitVec w) (esize : ElementSize) :
    BitVec 1 :=
  let elements := m.dim esize
  (List.range' 1 (elements - 1)).foldl
    (fun bit i => if idx = BitVec.ofNat w i then getPredBitFromLSB mask i esize.bits else bit)
    (getPredBitFromLSB mask 0 esize.bits)

/-- `source` replaces `dest` through a predicate mask; an inactive element is
zeroed in zero mode and keeps the destination's element otherwise.
`vector_length_bits` is `SVL` at every call. -/
def maskWithSinglePredicate (source dest : BitVec m.svl) (esize : ElementSize)
    (mask : BitVec m.pRegWidth) (isZeroMode : Bool := false) : BitVec m.svl :=
  concatenateFromLSB (m.dim_mul_bits esize) fun i =>
    let sourceElement := getElementInVectorFromLSB source i esize.bits
    let destElement := getElementInVectorFromLSB dest i esize.bits
    let activated := isActivated mask i esize.bits
    if isZeroMode then
      if activated then sourceElement else 0
    else
      if activated then sourceElement else destElement

theorem elem_maskWithSinglePredicate (source dest : BitVec m.svl) (esize : ElementSize)
    (mask : BitVec m.pRegWidth) (isZeroMode : Bool) {i : ℕ} (hi : i < m.dim esize) :
    elem (maskWithSinglePredicate source dest esize mask isZeroMode) i esize.bits =
      if mask.getLsbD (i * esize.bytes) then elem source i esize.bits
      else if isZeroMode then 0 else elem dest i esize.bits := by
  rw [maskWithSinglePredicate, elem_concatenateFromLSB _ _ hi]
  simp only [isActivated_eq, getElementInVectorFromLSB_eq]
  cases isZeroMode <;> rfl

/-! ## Registers -/

variable (s : State m)

def getVectorRegister (zIdx : BitVec 5) : BitVec m.svl :=
  Loops.selectChain (BitVec.ofNat 5) s.zRegs zIdx

def getPredicateRegister (pIdx : BitVec 4) : BitVec m.pRegWidth :=
  Loops.selectChain (BitVec.ofNat 4) s.pRegs pIdx

/-- The `Ite` chain reads the register it names. -/
theorem getVectorRegister_eq (zIdx : BitVec 5) :
    getVectorRegister s zIdx = s.zRegs ⟨zIdx.toNat, zIdx.isLt⟩ :=
  Loops.selectChain_ofNat (by decide) s.zRegs zIdx zIdx.isLt

theorem getPredicateRegister_eq (pIdx : BitVec 4) :
    getPredicateRegister s pIdx = s.pRegs ⟨pIdx.toNat, pIdx.isLt⟩ :=
  Loops.selectChain_ofNat (by decide) s.pRegs pIdx pIdx.isLt

/-- Index 31 is `WZR`. -/
def get32BitGPR (wIdx : BitVec 5) : BitVec 32 :=
  let expr := Loops.selectChain (BitVec.ofNat 5) (fun i => (s.gprs i).extractLsb' 0 32) wIdx
  if wIdx = 31 then 0 else expr

/-- Index 31 is `SP` when `use_sp` and `XZR` otherwise. -/
def get64BitGPR (xIdx : BitVec 5) (useSp : Bool := false) : BitVec 64 :=
  let expr := Loops.selectChain (BitVec.ofNat 5) s.gprs xIdx
  if useSp then
    if xIdx = 31 then s.sp else expr
  else
    if xIdx = 31 then 0 else expr

def updateSingleVectorRegister (zIdx : BitVec 5) (val : BitVec m.svl) : State m :=
  { s with zRegs := fun i => if zIdx = BitVec.ofNat 5 i then val else s.zRegs i }

@[simp]
theorem getVectorRegister_updateSingleVectorRegister (zIdx : BitVec 5) (val : BitVec m.svl) :
    getVectorRegister (updateSingleVectorRegister s zIdx val) zIdx = val := by
  rw [getVectorRegister_eq]
  exact if_pos (by simp)

def updateSinglePredicateRegister (pIdx : BitVec 4) (val : BitVec m.pRegWidth) : State m :=
  { s with pRegs := fun i => if pIdx = BitVec.ofNat 4 i then val else s.pRegs i }

/-- A write to index 31 goes to `SP` when `use_sp` and is disregarded otherwise. -/
def updateSingle64BitGPR (xIdx : BitVec 5) (val : BitVec 64) (useSp : Bool := false) :
    State m :=
  { s with
    gprs := fun i => if xIdx = BitVec.ofNat 5 i then val else s.gprs i
    sp := if useSp then (if xIdx = 31 then val else s.sp) else s.sp }

end Machine

/-- Both operands are zero-extended to the wider of the two. -/
def baseRegPlusImm {a b : ℕ} (baseRegValue : BitVec a) (imm : BitVec b) : BitVec (max a b) :=
  baseRegValue.setWidth (max a b) + imm.setWidth (max a b)

end ArmSmeIla
