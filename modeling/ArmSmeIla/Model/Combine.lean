import ArmSmeIla.Model.Tiles

/-!
# Read-modify-write of a whole tile

The `CombineTile` functions of `arm.cc`. All of them read every slice of a tile
from the same memory, compute a new slice from each, and store the new slices
one after the other; they differ in what they compute and, for `ADDVA`, in the
orientation.
-/

namespace ArmSmeIla

variable {m : ArmSme} {b : ℕ}

section Slices

variable (mem : ZaMem m) (tileIdx : BitVec b) (esize : ElementSize)

/-- Step 1: read all slices from the same memory. -/
def readHorizontalSlices : List (BitVec m.svl) :=
  (List.range (m.dim esize)).map fun row =>
    getTypedHorizontalSlice mem (BitVec.ofNat m.zaAddrWidth row) tileIdx esize

def readVerticalSlices : List (BitVec m.svl) :=
  (List.range (m.dim esize)).map fun col =>
    getTypedVerticalSlice mem (BitVec.ofNat m.zaAddrWidth col) tileIdx esize

/-- Step 3: store the slices, accumulating the memory. -/
def storeHorizontalSlices (slices : List (BitVec m.svl)) : ZaMem m :=
  slices.zipIdx.foldl (fun newMem (horSlice, row) =>
    setTypedHorizontalSlice newMem (BitVec.ofNat m.zaAddrWidth row) tileIdx esize horSlice) mem

def storeVerticalSlices (slices : List (BitVec m.svl)) : ZaMem m :=
  slices.zipIdx.foldl (fun newMem (verSlice, col) =>
    setTypedVerticalSlice newMem (BitVec.ofNat m.zaAddrWidth col) tileIdx esize verSlice) mem

end Slices

section Vectors

variable (mem : ZaMem m) (tileIdx : BitVec b) (vec : BitVec m.svl)
  (rowPred colPred : BitVec m.pRegWidth) (esize : ElementSize) (isZeroMode : Bool)
  (combineFn : BitVec esize.bits → BitVec esize.bits → BitVec esize.bits)

def combineTileWithHorizontalVector : ZaMem m :=
  let slices := readHorizontalSlices mem tileIdx esize
  let slices := slices.mapIdx fun row horSlice =>
    (List.range (m.dim esize)).foldl (fun horSlice col =>
      let oldElem := getElementInVectorFromLSB horSlice col esize.bits
      let extraElem := getElementInVectorFromLSB vec col esize.bits
      let rowColActivated :=
        isActivated rowPred row esize.bits && isActivated colPred col esize.bits
      let newElem :=
        if rowColActivated then combineFn oldElem extraElem
        else if isZeroMode then 0 else oldElem
      setElementInVectorFromLSB horSlice col esize.bits newElem) horSlice
  storeHorizontalSlices mem tileIdx esize slices

def combineTileWithVerticalVector : ZaMem m :=
  let slices := readVerticalSlices mem tileIdx esize
  let slices := slices.mapIdx fun col verSlice =>
    (List.range (m.dim esize)).foldl (fun verSlice row =>
      let oldElem := getElementInVectorFromLSB verSlice row esize.bits
      let extraElem := getElementInVectorFromLSB vec row esize.bits
      let rowColActivated :=
        isActivated rowPred row esize.bits && isActivated colPred col esize.bits
      let newElem :=
        if rowColActivated then combineFn oldElem extraElem
        else if isZeroMode then 0 else oldElem
      setElementInVectorFromLSB verSlice row esize.bits newElem) verSlice
  storeVerticalSlices mem tileIdx esize slices

end Vectors

section Matrices

variable (mem : ZaMem m) (tileIdx : BitVec b) (vec1 vec2 : BitVec m.svl)

/-- `op_unsigned ? ZExt(op, element_size_bits) : SExt(op, element_size_bits)`. -/
def extendOperand {w : ℕ} (op : BitVec w) (opUnsigned : Bool) (elementSizeBits : ℕ) :
    BitVec elementSizeBits :=
  if opUnsigned then op.setWidth elementSizeBits else op.signExtend elementSizeBits

/-- The `delta` of one cell: a dot product of four quarter-size elements, only
the pairs active on both sides counting. -/
def integerDelta (rowPred colPred : BitVec m.pRegWidth) (esize : ElementSize)
    (subInsteadOfAdd op1Unsigned op2Unsigned : Bool) (row col : ℕ) : BitVec esize.bits :=
  let subEsize := esize.bits / 4
  (List.range 4).foldl (fun delta k =>
    let activated :=
      isActivated rowPred (4 * row + k) subEsize && isActivated colPred (4 * col + k) subEsize
    let op1 := getElementInVectorFromLSB vec1 (4 * row + k) subEsize
    let op1 := extendOperand op1 op1Unsigned esize.bits
    let op2 := getElementInVectorFromLSB vec2 (4 * col + k) subEsize
    let op2 := extendOperand op2 op2Unsigned esize.bits
    let prod := op1 * op2
    let prod := if subInsteadOfAdd then -prod else prod
    if activated then delta + prod else delta) 0

def integerCombineTileWithMatrices (rowPred colPred : BitVec m.pRegWidth) (esize : ElementSize)
    (subInsteadOfAdd op1Unsigned op2Unsigned : Bool) : ZaMem m :=
  let slices := readHorizontalSlices mem tileIdx esize
  let slices := slices.mapIdx fun row horSlice =>
    (List.range (m.dim esize)).foldl (fun horSlice col =>
      let delta := integerDelta vec1 vec2 rowPred colPred esize subInsteadOfAdd op1Unsigned
        op2Unsigned row col
      let sum := getElementInVectorFromLSB horSlice col esize.bits
      setElementInVectorFromLSB horSlice col esize.bits (sum + delta)) horSlice
  storeHorizontalSlices mem tileIdx esize slices

/-- Vectors are seen as matrices: a widening matrix multiplication. -/
def floatCombineTileWithMatricesK2 (pred1 pred2 : BitVec m.pRegWidth)
    (destEsize srcEsize : ElementSize) (subInsteadOfAdd : Bool) (fpzero : BitVec srcEsize.bits)
    (negFn : BitVec srcEsize.bits → BitVec srcEsize.bits)
    (dotaddFn : BitVec destEsize.bits → BitVec srcEsize.bits → BitVec srcEsize.bits →
      BitVec srcEsize.bits → BitVec srcEsize.bits → BitVec destEsize.bits) : ZaMem m :=
  let slices := readHorizontalSlices mem tileIdx destEsize
  let slices := slices.mapIdx fun row horSlice =>
    concatenateFromLSB (m.dim_mul_bits destEsize) fun col =>
      let prow0 := isActivated pred1 (2 * row + 0) srcEsize.bits
      let prow1 := isActivated pred1 (2 * row + 1) srcEsize.bits
      let pcol0 := isActivated pred2 (2 * col + 0) srcEsize.bits
      let pcol1 := isActivated pred2 (2 * col + 1) srcEsize.bits
      let sum := getElementInVectorFromLSB horSlice col destEsize.bits
      let erow0 :=
        if prow0 then getElementInVectorFromLSB vec1 (2 * row + 0) srcEsize.bits else fpzero
      let erow1 :=
        if prow1 then getElementInVectorFromLSB vec1 (2 * row + 1) srcEsize.bits else fpzero
      let ecol0 :=
        if pcol0 then getElementInVectorFromLSB vec2 (2 * col + 0) srcEsize.bits else fpzero
      let ecol1 :=
        if pcol1 then getElementInVectorFromLSB vec2 (2 * col + 1) srcEsize.bits else fpzero
      -- only the row elements are negated
      let erow0 := if subInsteadOfAdd then (if prow0 then negFn erow0 else erow0) else erow0
      let erow1 := if subInsteadOfAdd then (if prow1 then negFn erow1 else erow1) else erow1
      let anyActive := (prow0 && pcol0) || (prow1 && pcol1)
      if anyActive then dotaddFn sum erow0 erow1 ecol0 ecol1 else sum
  storeHorizontalSlices mem tileIdx destEsize slices

/-- Despite the name, a vector outer product. -/
def floatCombineTileWithMatricesK1 (pred1 pred2 : BitVec m.pRegWidth) (esize : ElementSize)
    (subInsteadOfAdd : Bool) (negFn : BitVec esize.bits → BitVec esize.bits)
    (fmacFn : BitVec esize.bits → BitVec esize.bits → BitVec esize.bits → BitVec esize.bits) :
    ZaMem m :=
  let slices := readHorizontalSlices mem tileIdx esize
  let slices := slices.mapIdx fun row horSlice =>
    concatenateFromLSB (m.dim_mul_bits esize) fun col =>
      let sum := getElementInVectorFromLSB horSlice col esize.bits
      let op1 := getElementInVectorFromLSB vec1 row esize.bits
      let op2 := getElementInVectorFromLSB vec2 col esize.bits
      let op1 := if subInsteadOfAdd then negFn op1 else op1
      let activated := isActivated pred1 row esize.bits && isActivated pred2 col esize.bits
      if activated then fmacFn sum op1 op2 else sum
  storeHorizontalSlices mem tileIdx esize slices

end Matrices

end ArmSmeIla
