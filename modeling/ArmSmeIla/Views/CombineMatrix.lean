import ArmSmeIla.Foundation.Lines
import ArmSmeIla.Model.Combine
import ArmSmeIla.Views.TileMatrix

/-!
# Whole-tile updates as matrix maps

Reading all slices, computing, and storing all slices replaces one matrix of
the family by another; every element of the new matrix is a function of the
old element and of the operands at that element's row and column.
-/

namespace ArmSmeIla

open Packing

variable {m : ArmSme} {esize : ElementSize} {b : ℕ}

/-- The tile a constrained selector names. -/
def tileOf (esize : ElementSize) {w : ℕ} (selector : BitVec w) : TileIdx esize :=
  ⟨selector.toNat % esize.bytes, Nat.mod_lt _ esize.bytes_pos⟩

/-- `ToConstrainedTileIndex` is the selector modulo the number of tiles. -/
theorem toConstrainedTileIndex_toNat {w : ℕ} (selector : BitVec w) (esize : ElementSize) :
    (toConstrainedTileIndex selector esize).toNat = tileOf esize selector := by
  cases esize with
  | byte => exact (Nat.mod_one _).symm
  | half => exact BitVec.extractLsb'_toNat ..
  | word => exact BitVec.extractLsb'_toNat ..
  | double => exact BitVec.extractLsb'_toNat ..
  | quad => exact BitVec.extractLsb'_toNat ..

/-! ## Loops over the lanes of one slice -/

/-- Replacing element after element in place replaces each lane once. -/
theorem lanes_foldl_setElement (g : ℕ → BitVec esize.bits → BitVec esize.bits)
    (v : BitVec m.svl) :
    lanes esize ((List.range (m.dim esize)).foldl (fun v i =>
      setElementInVectorFromLSB v i esize.bits
        (g i (getElementInVectorFromLSB v i esize.bits))) v) =
      fun i : SliceIdx m esize => g i (lanes esize v i) := by
  funext j
  exact elem_foldl_setElement (m.dim_mul_bits esize).symm esize.bits_pos g v j.isLt

theorem lanes_concatenateFromLSB (f : ℕ → BitVec esize.bits) :
    lanes esize (concatenateFromLSB (m.dim_mul_bits esize) f) =
      fun i : SliceIdx m esize => f i := by
  funext i
  exact elem_concatenateFromLSB _ _ i.isLt

theorem lanes_maskWithSinglePredicate (source dest : BitVec m.svl) (mask : BitVec m.pRegWidth)
    (isZeroMode : Bool) (i : SliceIdx m esize) :
    lanes esize (maskWithSinglePredicate source dest esize mask isZeroMode) i =
      if mask.getLsbD (i * esize.bytes) then lanes esize source i
      else if isZeroMode then 0 else lanes esize dest i :=
  elem_maskWithSinglePredicate source dest esize mask isZeroMode i.isLt

/-- The same with the predicate test of the source. -/
theorem lanes_maskWithSinglePredicate_isActivated (source dest : BitVec m.svl)
    (mask : BitVec m.pRegWidth) (isZeroMode : Bool) (i : SliceIdx m esize) :
    lanes esize (maskWithSinglePredicate source dest esize mask isZeroMode) i =
      if isActivated mask i esize.bits then lanes esize source i
      else if isZeroMode then 0 else lanes esize dest i := by
  rw [isActivated_eq]
  exact lanes_maskWithSinglePredicate source dest mask isZeroMode i

/-- Under one mask only the first source and the last destination count. -/
theorem maskWithSinglePredicate_mask (source dest dest' : BitVec m.svl)
    (mask : BitVec m.pRegWidth) (isZeroMode isZeroMode' : Bool) :
    maskWithSinglePredicate (maskWithSinglePredicate source dest esize mask isZeroMode) dest' esize
        mask isZeroMode' =
      maskWithSinglePredicate source dest' esize mask isZeroMode' := by
  apply lanes_injective esize
  funext i
  rw [lanes_maskWithSinglePredicate, lanes_maskWithSinglePredicate, lanes_maskWithSinglePredicate]
  by_cases h : mask.getLsbD (i * esize.bytes)
  · rw [if_pos h, if_pos h, if_pos h]
  · rw [if_neg h, if_neg h]

/-- Merging into the source itself, under any mask. -/
theorem maskWithSinglePredicate_merged (source dest : BitVec m.svl) (mask : BitVec m.pRegWidth)
    (isZeroMode : Bool) :
    maskWithSinglePredicate (maskWithSinglePredicate source dest esize mask isZeroMode) source esize
        mask =
      source := by
  rw [maskWithSinglePredicate_mask]
  apply lanes_injective esize
  funext i
  rw [lanes_maskWithSinglePredicate, if_neg Bool.false_ne_true]
  exact ite_self _

/-! ## Storing all slices -/

section Store

variable {tileIdx : BitVec b} {t : TileIdx esize} (ht : tileIdx.toNat = t) (mem : ZaMem m)

include ht

/-- Storing all horizontal slices replaces the whole matrix, row by row. -/
theorem tiles_storeHorizontalSlices (g : ℕ → BitVec m.svl) :
    tiles esize (storeHorizontalSlices mem tileIdx esize ((List.range (m.dim esize)).map g)) =
      Function.update (tiles esize mem) t (Matrix.of fun r => lanes esize (g r)) := by
  rw [storeHorizontalSlices, Loops.zipIdx_map_range, List.foldl_map]
  refine Lines.foldl_setLine (tiles esize) false (fun i => lanes esize (g i)) ?_ mem
  intro i mem
  rw [tiles_setTypedHorizontalSlice mem _ _ ht, sliceOf_ofNat]
  rfl

/-- Storing all vertical slices replaces the whole matrix, column by column. -/
theorem tiles_storeVerticalSlices (g : ℕ → BitVec m.svl) :
    tiles esize (storeVerticalSlices mem tileIdx esize ((List.range (m.dim esize)).map g)) =
      Function.update (tiles esize mem) t (Matrix.of fun r c => lanes esize (g c) r) := by
  rw [storeVerticalSlices, Loops.zipIdx_map_range, List.foldl_map]
  refine Lines.foldl_setLine (tiles esize) true (fun i => lanes esize (g i)) ?_ mem
  intro i mem
  rw [tiles_setTypedVerticalSlice mem _ _ ht, sliceOf_ofNat]
  rfl

/-! ## The four combinations -/

/-- A slice-wise horizontal update, seen as a map on the rows of the matrix. -/
theorem tiles_mapHorizontalSlices (f : ℕ → BitVec m.svl → BitVec m.svl) :
    tiles esize (storeHorizontalSlices mem tileIdx esize
        ((readHorizontalSlices mem tileIdx esize).mapIdx f)) =
      Function.update (tiles esize mem) t (Matrix.of fun r => lanes esize
        (f r (getTypedHorizontalSlice mem (BitVec.ofNat m.zaAddrWidth r) tileIdx esize))) := by
  rw [readHorizontalSlices, Loops.mapIdx_map_range]
  exact tiles_storeHorizontalSlices ht mem _

theorem lanes_readHorizontalSlice (r : SliceIdx m esize) :
    lanes esize (getTypedHorizontalSlice mem (BitVec.ofNat m.zaAddrWidth r) tileIdx esize) =
      (tiles esize mem t).row r := by
  rw [lanes_getTypedHorizontalSlice mem _ ht, sliceOf_ofNat]

theorem lanes_readVerticalSlice (c : SliceIdx m esize) :
    lanes esize (getTypedVerticalSlice mem (BitVec.ofNat m.zaAddrWidth c) tileIdx esize) =
      (tiles esize mem t).col c := by
  rw [lanes_getTypedVerticalSlice mem _ ht, sliceOf_ofNat]

section Vectors

variable (vec : BitVec m.svl) (rowPred colPred : BitVec m.pRegWidth) (isZeroMode : Bool)
  (combineFn : BitVec esize.bits → BitVec esize.bits → BitVec esize.bits)

/-- Element `(r, c)` is active when row bit `r` and column bit `c` are. -/
theorem tiles_combineTileWithHorizontalVector :
    tiles esize (combineTileWithHorizontalVector mem tileIdx vec rowPred colPred esize
        isZeroMode combineFn) =
      Function.update (tiles esize mem) t (Matrix.of fun r c =>
        if rowPred.getLsbD (r * esize.bytes) && colPred.getLsbD (c * esize.bytes) then
          combineFn (tiles esize mem t r c) (lanes esize vec c)
        else if isZeroMode then 0 else tiles esize mem t r c) := by
  rw [combineTileWithHorizontalVector, tiles_mapHorizontalSlices ht]
  congr 1
  apply Matrix.ext
  intro r c
  simp only [Matrix.of_apply, isActivated_eq, getElementInVectorFromLSB_eq]
  have hloop := congrFun (lanes_foldl_setElement (fun col old =>
    if rowPred.getLsbD (r * esize.bytes) && colPred.getLsbD (col * esize.bytes) then
      combineFn old (elem vec col esize.bits) else if isZeroMode then 0 else old)
    (getTypedHorizontalSlice mem (BitVec.ofNat m.zaAddrWidth r) tileIdx esize)) c
  rw [lanes_readHorizontalSlice ht mem r] at hloop
  exact hloop

theorem tiles_combineTileWithVerticalVector :
    tiles esize (combineTileWithVerticalVector mem tileIdx vec rowPred colPred esize
        isZeroMode combineFn) =
      Function.update (tiles esize mem) t (Matrix.of fun r c =>
        if rowPred.getLsbD (r * esize.bytes) && colPred.getLsbD (c * esize.bytes) then
          combineFn (tiles esize mem t r c) (lanes esize vec r)
        else if isZeroMode then 0 else tiles esize mem t r c) := by
  rw [combineTileWithVerticalVector, readVerticalSlices, Loops.mapIdx_map_range,
    tiles_storeVerticalSlices ht]
  congr 1
  apply Matrix.ext
  intro r c
  simp only [Matrix.of_apply, isActivated_eq, getElementInVectorFromLSB_eq]
  have hloop := congrFun (lanes_foldl_setElement (fun row old =>
    if rowPred.getLsbD (row * esize.bytes) && colPred.getLsbD (c * esize.bytes) then
      combineFn old (elem vec row esize.bits) else if isZeroMode then 0 else old)
    (getTypedVerticalSlice mem (BitVec.ofNat m.zaAddrWidth c) tileIdx esize)) r
  rw [lanes_readVerticalSlice ht mem c] at hloop
  exact hloop

end Vectors

section Matrices

variable (vec1 vec2 : BitVec m.svl) (pred1 pred2 : BitVec m.pRegWidth)

theorem tiles_integerCombineTileWithMatrices (subInsteadOfAdd op1Unsigned op2Unsigned : Bool) :
    tiles esize (integerCombineTileWithMatrices mem tileIdx vec1 vec2 pred1 pred2 esize
        subInsteadOfAdd op1Unsigned op2Unsigned) =
      Function.update (tiles esize mem) t (tiles esize mem t + Matrix.of
        fun r c : SliceIdx m esize => integerDelta vec1 vec2 pred1 pred2 esize subInsteadOfAdd
          op1Unsigned op2Unsigned r c) := by
  rw [integerCombineTileWithMatrices, tiles_mapHorizontalSlices ht]
  congr 1
  apply Matrix.ext
  intro r c
  have hloop := congrFun (lanes_foldl_setElement (fun col old => old +
    integerDelta vec1 vec2 pred1 pred2 esize subInsteadOfAdd op1Unsigned op2Unsigned r col)
    (getTypedHorizontalSlice mem (BitVec.ofNat m.zaAddrWidth r) tileIdx esize)) c
  rw [lanes_readHorizontalSlice ht mem r] at hloop
  exact hloop

theorem tiles_floatCombineTileWithMatricesK1 (subInsteadOfAdd : Bool)
    (negFn : BitVec esize.bits → BitVec esize.bits)
    (fmacFn : BitVec esize.bits → BitVec esize.bits → BitVec esize.bits → BitVec esize.bits) :
    tiles esize (floatCombineTileWithMatricesK1 mem tileIdx vec1 vec2 pred1 pred2 esize
        subInsteadOfAdd negFn fmacFn) =
      Function.update (tiles esize mem) t (Matrix.of fun r c =>
        if pred1.getLsbD (r * esize.bytes) && pred2.getLsbD (c * esize.bytes) then
          fmacFn (tiles esize mem t r c)
            (if subInsteadOfAdd then negFn (lanes esize vec1 r) else lanes esize vec1 r)
            (lanes esize vec2 c)
        else tiles esize mem t r c) := by
  rw [floatCombineTileWithMatricesK1, tiles_mapHorizontalSlices ht]
  congr 1
  apply Matrix.ext
  intro r c
  rw [Matrix.of_apply, lanes_concatenateFromLSB]
  simp only [isActivated_eq, getElementInVectorFromLSB_eq]
  have hrow := congrFun (lanes_readHorizontalSlice ht mem r) c
  simp only [lanes] at hrow
  rw [hrow]
  rfl

end Matrices

end Store

/-! ## Dot products in exact integers -/

section Integers

/-- The integer a narrow operand stands for. -/
def operandValue {w : ℕ} (op : BitVec w) (opUnsigned : Bool) : ℤ :=
  if opUnsigned then op.toNat else op.toInt

theorem extendOperand_eq_ofInt {w : ℕ} (op : BitVec w) (opUnsigned : Bool)
    (elementSizeBits : ℕ) :
    extendOperand op opUnsigned elementSizeBits =
      BitVec.ofInt elementSizeBits (operandValue op opUnsigned) := by
  cases opUnsigned with
  | false => rfl
  | true =>
      simp only [extendOperand, operandValue, if_true]
      rw [BitVec.ofInt_natCast, BitVec.ofNat_toNat]

/-- The active products of four quarter-size elements, summed up. -/
def dotProduct (vec1 vec2 : BitVec m.svl) (rowPred colPred : BitVec m.pRegWidth)
    (esize : ElementSize) (op1Unsigned op2Unsigned : Bool) (row col : ℕ) : ℤ :=
  ∑ k ∈ Finset.range 4,
    if rowPred.getLsbD ((4 * row + k) * (esize.bits / 32)) &&
        colPred.getLsbD ((4 * col + k) * (esize.bits / 32)) then
      operandValue (elem vec1 (4 * row + k) (esize.bits / 4)) op1Unsigned *
        operandValue (elem vec2 (4 * col + k) (esize.bits / 4)) op2Unsigned
    else 0

/-- A conditional accumulation in wrapping arithmetic is an exact sum, wrapped
once. -/
theorem foldl_ofInt {w : ℕ} (active : ℕ → Bool) (x : ℕ → ℤ) (n : ℕ) :
    (List.range n).foldl (fun acc k => if active k then acc + BitVec.ofInt w (x k) else acc) 0 =
      BitVec.ofInt w (∑ k ∈ Finset.range n, if active k then x k else 0) := by
  induction n with
  | zero => rfl
  | succ n ih =>
      rw [List.range_succ, List.foldl_append, ih, Finset.sum_range_succ, BitVec.ofInt_add]
      simp only [List.foldl_cons, List.foldl_nil]
      by_cases h : active n
      · rw [if_pos h, if_pos h]
      · rw [if_neg h, if_neg h]
        exact (BitVec.add_zero _).symm

theorem integerDelta_eq_ofInt (vec1 vec2 : BitVec m.svl) (rowPred colPred : BitVec m.pRegWidth)
    (esize : ElementSize) (subInsteadOfAdd op1Unsigned op2Unsigned : Bool) (row col : ℕ) :
    integerDelta vec1 vec2 rowPred colPred esize subInsteadOfAdd op1Unsigned op2Unsigned row col =
      BitVec.ofInt esize.bits
        (let sum := dotProduct vec1 vec2 rowPred colPred esize op1Unsigned op2Unsigned row col
        if subInsteadOfAdd then -sum else sum) := by
  let active (k : ℕ) : Bool := rowPred.getLsbD ((4 * row + k) * (esize.bits / 32)) &&
    colPred.getLsbD ((4 * col + k) * (esize.bits / 32))
  let prod (k : ℕ) : ℤ := operandValue (elem vec1 (4 * row + k) (esize.bits / 4)) op1Unsigned *
    operandValue (elem vec2 (4 * col + k) (esize.bits / 4)) op2Unsigned
  have hprod : ∀ k, extendOperand (elem vec1 (4 * row + k) (esize.bits / 4)) op1Unsigned
        esize.bits * extendOperand (elem vec2 (4 * col + k) (esize.bits / 4)) op2Unsigned
        esize.bits = BitVec.ofInt esize.bits (prod k) := by
    intro k
    rw [extendOperand_eq_ofInt, extendOperand_eq_ofInt, ← BitVec.ofInt_mul]
  have hstride : esize.bits / 4 / 8 = esize.bits / 32 := Nat.div_div_eq_div_mul ..
  unfold integerDelta
  simp only [isActivated_eq, getElementInVectorFromLSB_eq, hstride, hprod]
  cases subInsteadOfAdd with
  | false => exact foldl_ofInt active prod 4
  | true =>
      simp only [if_true, ← BitVec.ofInt_neg]
      refine (foldl_ofInt active (fun k => -prod k) 4).trans ?_
      congr 1
      rw [dotProduct, ← Finset.sum_neg_distrib]
      exact Finset.sum_congr rfl fun k _ => by rw [neg_ite, neg_zero]

end Integers

section Widening

variable {destEsize srcEsize : ElementSize} {tileIdx : BitVec b} {t : TileIdx destEsize}

/-- One operand of a widening product: zero when inactive, negated only when
active. -/
def wideningOperand {w : ℕ} (vec : BitVec w) (pred : BitVec m.pRegWidth) (srcEsize : ElementSize)
    (fpzero : BitVec srcEsize.bits) (negFn : BitVec srcEsize.bits → BitVec srcEsize.bits)
    (i : ℕ) : BitVec srcEsize.bits :=
  if pred.getLsbD (i * srcEsize.bytes) then negFn (elem vec i srcEsize.bits) else fpzero

theorem tiles_floatCombineTileWithMatricesK2 (ht : tileIdx.toNat = t) (mem : ZaMem m)
    (vec1 vec2 : BitVec m.svl) (pred1 pred2 : BitVec m.pRegWidth) (subInsteadOfAdd : Bool)
    (fpzero : BitVec srcEsize.bits) (negFn : BitVec srcEsize.bits → BitVec srcEsize.bits)
    (dotaddFn : BitVec destEsize.bits → BitVec srcEsize.bits → BitVec srcEsize.bits →
      BitVec srcEsize.bits → BitVec srcEsize.bits → BitVec destEsize.bits) :
    tiles destEsize (floatCombineTileWithMatricesK2 mem tileIdx vec1 vec2 pred1 pred2 destEsize
        srcEsize subInsteadOfAdd fpzero negFn dotaddFn) =
      Function.update (tiles destEsize mem) t (Matrix.of fun r c =>
        let neg := if subInsteadOfAdd then negFn else id
        if (pred1.getLsbD ((2 * r) * srcEsize.bytes) && pred2.getLsbD ((2 * c) * srcEsize.bytes)) ||
            (pred1.getLsbD ((2 * r + 1) * srcEsize.bytes) &&
              pred2.getLsbD ((2 * c + 1) * srcEsize.bytes)) then
          dotaddFn (tiles destEsize mem t r c)
            (wideningOperand vec1 pred1 srcEsize fpzero neg (2 * r))
            (wideningOperand vec1 pred1 srcEsize fpzero neg (2 * r + 1))
            (wideningOperand vec2 pred2 srcEsize fpzero id (2 * c))
            (wideningOperand vec2 pred2 srcEsize fpzero id (2 * c + 1))
        else tiles destEsize mem t r c) := by
  rw [floatCombineTileWithMatricesK2, tiles_mapHorizontalSlices ht]
  congr 1
  apply Matrix.ext
  intro r c
  rw [Matrix.of_apply, lanes_concatenateFromLSB]
  simp only [isActivated_eq, getElementInVectorFromLSB_eq, Nat.add_zero]
  have hrow := congrFun (lanes_readHorizontalSlice ht mem r) c
  simp only [lanes] at hrow
  rw [hrow]
  have hneg : ∀ (p : Bool) (x : BitVec srcEsize.bits),
      (if subInsteadOfAdd then (if p then negFn (if p then x else fpzero)
        else (if p then x else fpzero)) else (if p then x else fpzero)) =
      if p then (if subInsteadOfAdd then negFn else id) x else fpzero := by
    intro p x
    cases p <;> cases subInsteadOfAdd <;> rfl
  simp only [hneg]
  rfl

end Widening

end ArmSmeIla
