import ArmSmeIla.Model.Tiles

/-!
# The slices of the tests

`track_slice` and `cstr_all_tracked_and_zero` (`test_helpers.cc`), and
`GetSliceAddresses` (`arm.cc`) with its user `cstr_step_slice`, compute ZA
addresses once more, in C++ integers instead of ILA expressions. The sizes,
rows, columns and addresses are natural numbers here: for every `SVL` whose
`ZA_BYTE_SIZE` is a `NumericType`, columns fit an `int` and addresses a
`size_t`. Values are those that the Z3 expressions denote.
-/

namespace ArmSmeIla

variable {m : ArmSme}

/-- `std::unordered_map<size_t, z3::expr>`: the tracked byte of an address. -/
abbrev Tracker : Type := ℕ → Option (BitVec 8)

def Tracker.insertOrAssign (tracker : Tracker) (addr : ℕ) (value : BitVec 8) : Tracker :=
  Function.update tracker addr (some value)

/-- Byte of the vector from the LSB. -/
def getVecByteLSB (valueExpr : BitVec m.svl) (idx : ℕ) : BitVec 8 :=
  let rightmost := 8 * idx
  valueExpr.extractLsb' rightmost 8

/-- Byte of the vector from the MSB. -/
def getVecByteMSB (valueExpr : BitVec m.svl) (idx : ℕ) : BitVec 8 :=
  let mirroredIdx := m.svlB - 1 - idx
  getVecByteLSB valueExpr mirroredIdx

/-- The fast modulo `slice_idx & (dim - 1)`, on the `NumericType` of the index. -/
def trackedSliceIdx (m : ArmSme) (sliceIdx : BitVec 32) (esize : ElementSize) : ℕ :=
  if m.dim esize = 1 then 0
  else (intToNumeric sliceIdx &&& BitVec.ofNat 64 (m.dim esize - 1)).toNat

def trackSlice (tracker : Tracker) (valueExpr : BitVec m.svl) (tileIdx sliceIdx : BitVec 32)
    (isVertical : Bool) (esize : ElementSize) : Tracker :=
  let dim := m.dim esize
  let numTiles := m.numTiles esize
  let elementSizeBytes := esize.bits / 8
  if isVertical then
    let wrappedColIdx := trackedSliceIdx m sliceIdx esize
    let col := (m.svlB - elementSizeBytes) - (wrappedColIdx * elementSizeBytes)
    -- bottom up: row `i` takes the bytes of element `dim - 1 - i` from the MSB
    (List.range dim).foldl (fun tracker i =>
      let row := (intToNumeric tileIdx).toNat + i * numTiles
      let baseAddr := row * m.svlB + col
      (List.range elementSizeBytes).foldl (fun tracker b =>
        tracker.insertOrAssign (baseAddr + b)
          (getVecByteMSB valueExpr ((dim - 1 - i) * elementSizeBytes + b))) tracker) tracker
  else
    let wrappedRowIdx := trackedSliceIdx m sliceIdx esize
    let row := (intToNumeric tileIdx).toNat + wrappedRowIdx * numTiles
    (List.range m.svlB).foldl (fun tracker col =>
      tracker.insertOrAssign (row * m.svlB + col) (getVecByteMSB valueExpr col)) tracker

/-- The constraints added, each on one byte of ZA: the address and the value.
An address that is not tracked is constrained to zero. -/
def cstrAllTrackedAndZero (m : ArmSme) (tracker : Tracker) :
    List (BitVec m.zaAddrWidth × BitVec 8) :=
  (List.range m.zaByteSize).map fun addr =>
    match tracker addr with
    | some val => (BitVec.ofNat m.zaAddrWidth addr, val)
    | none => (BitVec.ofNat m.zaAddrWidth addr, 0x00)

/-! ## One slice -/

/-- The addresses of a slice; `none` where the assertion fails. -/
def getSliceAddresses (m : ArmSme) (tileIdx sliceIdx : BitVec 32) (isVertical : Bool)
    (esize : ElementSize) : Option (List ℕ) :=
  let dim := m.dim esize
  let numTiles := m.numTiles esize
  let elementSizeBytes := esize.bits / 8
  -- must be even for fast modulo to work
  if dim % 2 ≠ 0 then
    none
  else if isVertical then
    let wrappedColIdx := trackedSliceIdx m sliceIdx esize
    let col := (m.svlB - elementSizeBytes) - (wrappedColIdx * elementSizeBytes)
    some ((List.range dim).flatMap fun i =>
      let row := (intToNumeric tileIdx).toNat + i * numTiles
      let baseAddr := row * m.svlB + col
      (List.range elementSizeBytes).map fun b => baseAddr + b)
  else
    let wrappedRowIdx := trackedSliceIdx m sliceIdx esize
    let row := (intToNumeric tileIdx).toNat + wrappedRowIdx * numTiles
    some ((List.range m.svlB).map fun col => row * m.svlB + col)

/-- The constraints on ZA: every byte that the slice does not touch is zero, and
the slice has the value. -/
def cstrStepSlice (valueExpr : BitVec m.svl) (tileIdx sliceIdx : BitVec 32) (isVertical : Bool)
    (esize : ElementSize) : Option (List (ZaMem m → Bool)) :=
  (getSliceAddresses m tileIdx sliceIdx isVertical esize).map fun touchedAddrs =>
    let untouched := (List.range m.zaByteSize).filter fun addr => !touchedAddrs.contains addr
    let zeros := untouched.map fun addr (za : ZaMem m) =>
      za (BitVec.ofNat m.zaAddrWidth addr) == 0x00
    let sliceExpr (za : ZaMem m) : BitVec m.svl :=
      if isVertical then getVerticalSlice za tileIdx sliceIdx esize
      else getHorizontalSlice za tileIdx sliceIdx esize
    zeros ++ [fun za => sliceExpr za == valueExpr]

end ArmSmeIla
