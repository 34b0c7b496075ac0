import ArmSmeIla.Model.Vectors

/-!
# ZA accesses

The ZA helpers of `arm.cc`. ZA is big endian: the byte at the lowest address
of an element, and of a horizontal slice, is the most significant one. Row 0
is the topmost row of a tile; column 0 of a vertical slice is the rightmost.
-/

namespace ArmSmeIla

open Packing

variable {m : ArmSme} {w : ℕ}

/-- The width of a constrained tile index; the source treats `BYTE` and `HALF`
as edge cases of `log2`. -/
def tileIndexWidth (esize : ElementSize) : ℕ :=
  match esize with
  | .byte => 1
  | .half => 1
  | _ => Nat.log2 esize.bytes

def toConstrainedTileIndex (tileIdx : BitVec w) (esize : ElementSize) :
    BitVec (tileIndexWidth esize) :=
  match esize with
  | .byte => 0#1
  | .half => tileIdx.extractLsb' 0 1
  | .word => tileIdx.extractLsb' 0 (Nat.log2 ElementSize.word.bytes)
  | .double => tileIdx.extractLsb' 0 (Nat.log2 ElementSize.double.bytes)
  | .quad => tileIdx.extractLsb' 0 (Nat.log2 ElementSize.quad.bytes)

/-! ## Elements at an address -/

def getByte (mem : ZaMem m) (addr : BitVec m.zaAddrWidth) : BitVec 8 :=
  mem addr

def getHalf (mem : ZaMem m) (addr : BitVec m.zaAddrWidth) : BitVec 16 :=
  getByte mem addr ++ getByte mem (addr + BitVec.ofNat _ 1)

def getWord (mem : ZaMem m) (addr : BitVec m.zaAddrWidth) : BitVec 32 :=
  getHalf mem addr ++ getHalf mem (addr + BitVec.ofNat _ 2)

def getDouble (mem : ZaMem m) (addr : BitVec m.zaAddrWidth) : BitVec 64 :=
  getWord mem addr ++ getWord mem (addr + BitVec.ofNat _ 4)

def getQuad (mem : ZaMem m) (addr : BitVec m.zaAddrWidth) : BitVec 128 :=
  getDouble mem addr ++ getDouble mem (addr + BitVec.ofNat _ 8)

def getElementAtAddress (mem : ZaMem m) (addr : BitVec m.zaAddrWidth) :
    (esize : ElementSize) → BitVec esize.bits
  | .byte => getByte mem addr
  | .half => getHalf mem addr
  | .word => getWord mem addr
  | .double => getDouble mem addr
  | .quad => getQuad mem addr

/-- Sequentially places each byte from left to right starting at `addr`. -/
def setElementAtAddress (mem : ZaMem m) (addr : BitVec m.zaAddrWidth) (esize : ElementSize)
    (data : BitVec esize.bits) : ZaMem m :=
  (List.range (esize.bits / 8)).foldl
    (fun newMem i => Function.update newMem (addr + BitVec.ofNat _ i)
      (getElementInVectorFromMSB data i 8 esize.bits)) mem

def toByteMemoryAddress {a b : ℕ} (row : BitVec a) (col : BitVec b) : BitVec m.zaAddrWidth :=
  row.setWidth m.zaAddrWidth * BitVec.ofNat m.zaAddrWidth m.svlB + col.setWidth m.zaAddrWidth

/-! ## Slices

`wrappedSliceIdx` is the `row_idx % dim`, `col_idx % dim` that the four slice
functions compute in the same words. An index narrower than `log2(dim)` bits,
which ILAng's `Extract` rejects, is read here as if zero-extended. -/

section Slices

variable {a b : ℕ}

/-- The source handles `dim == 1` apart because `log2(1)` is 0. -/
def wrappedSliceIdx (m : ArmSme) (sliceIdx : BitVec a) (esize : ElementSize) :
    BitVec m.zaAddrWidth :=
  if m.dim esize = 1 then
    BitVec.ofNat m.zaAddrWidth 0
  else
    (sliceIdx.extractLsb' 0 (Nat.log2 (m.dim esize))).setWidth m.zaAddrWidth

/-- The ZA row of a horizontal slice. -/
def horizontalRow (m : ArmSme) (rowIdx : BitVec a) (tileIdx : BitVec b) (esize : ElementSize) :
    BitVec m.zaAddrWidth :=
  tileIdx.setWidth m.zaAddrWidth +
    wrappedSliceIdx m rowIdx esize * BitVec.ofNat m.zaAddrWidth (m.numTiles esize)

/-- The leftmost ZA byte column of a vertical slice. -/
def verticalCol (m : ArmSme) (colIdx : BitVec a) (esize : ElementSize) : BitVec m.zaAddrWidth :=
  let elementSizeBytes := BitVec.ofNat m.zaAddrWidth (esize.bits / 8)
  -- the rightmost element's column, moved back `col_idx` elements
  (BitVec.ofNat m.zaAddrWidth m.svlB - elementSizeBytes) -
    (wrappedSliceIdx m colIdx esize * elementSizeBytes)

/-- The ZA row of element `i` of a vertical slice. -/
def verticalRow (m : ArmSme) (tileIdx : BitVec b) (i : ℕ) (esize : ElementSize) :
    BitVec m.zaAddrWidth :=
  tileIdx.setWidth m.zaAddrWidth + BitVec.ofNat m.zaAddrWidth (i * m.numTiles esize)

theorem horizontal_width (m : ArmSme) (f : ℕ → BitVec 8) :
    8 + ((List.range' 1 (m.svlB - 1)).map f).length * 8 = m.svl := by
  have hpos := m.svlB_pos
  have hsvl := m.svl_eq
  rw [List.length_map, List.length_range']
  omega

theorem vertical_width (m : ArmSme) (esize : ElementSize) (f : ℕ → BitVec esize.bits) :
    esize.bits + ((List.range' 1 (m.dim esize - 1)).map f).length * esize.bits = m.svl := by
  have hpos := m.dim_pos esize
  rw [List.length_map, List.length_range', ← m.dim_mul_bits esize]
  obtain ⟨d, hd⟩ := Nat.exists_eq_succ_of_ne_zero hpos.ne'
  rw [hd]
  simp only [Nat.succ_eq_add_one, Nat.add_sub_cancel]
  ring

/-- `_GetTypedHorizontalSlice`: the first byte, then the remaining bytes
concatenated on its right. -/
def getTypedHorizontalSlice (mem : ZaMem m) (rowIdx : BitVec a) (tileIdx : BitVec b)
    (esize : ElementSize) : BitVec m.svl :=
  let row : BitVec m.zaAddrWidth := horizontalRow m rowIdx tileIdx esize
  let byteAt (i : ℕ) : BitVec 8 :=
    getByte mem (toByteMemoryAddress row (BitVec.ofNat m.zaAddrWidth i))
  (appendAll (byteAt 0) ((List.range' 1 (m.svlB - 1)).map byteAt)).cast (horizontal_width m _)

/-- `_GetTypedVerticalSlice`: the first row's element, then those of the rows
below concatenated on its left. -/
def getTypedVerticalSlice (mem : ZaMem m) (colIdx : BitVec a) (tileIdx : BitVec b)
    (esize : ElementSize) : BitVec m.svl :=
  let col : BitVec m.zaAddrWidth := verticalCol m colIdx esize
  let first := getElementAtAddress mem (toByteMemoryAddress tileIdx col) esize
  let elementAt (i : ℕ) : BitVec esize.bits :=
    getElementAtAddress mem (toByteMemoryAddress (verticalRow m tileIdx i esize) col) esize
  (prependAll first ((List.range' 1 (m.dim esize - 1)).map elementAt)).cast
    (vertical_width m esize _)

def getTypedSlice (mem : ZaMem m) (isVertical : Bool) (tileIdx : BitVec b)
    (sliceIdx : BitVec a) (esize : ElementSize) : BitVec m.svl :=
  if isVertical then getTypedVerticalSlice mem sliceIdx tileIdx esize
  else getTypedHorizontalSlice mem sliceIdx tileIdx esize

/-- `_SetTypedHorizontalSlice`. -/
def setTypedHorizontalSlice (mem : ZaMem m) (rowIdx : BitVec a) (tileIdx : BitVec b)
    (esize : ElementSize) (data : BitVec m.svl) : ZaMem m :=
  let row : BitVec m.zaAddrWidth := horizontalRow m rowIdx tileIdx esize
  (List.range m.svlB).foldl
    (fun newMem i => Function.update newMem
      (toByteMemoryAddress row (BitVec.ofNat m.zaAddrWidth i))
      (getElementInVectorFromMSB data i 8 m.svl)) mem

/-- `_SetTypedVerticalSlice`. -/
def setTypedVerticalSlice (mem : ZaMem m) (colIdx : BitVec a) (tileIdx : BitVec b)
    (esize : ElementSize) (data : BitVec m.svl) : ZaMem m :=
  let col : BitVec m.zaAddrWidth := verticalCol m colIdx esize
  let first := setElementAtAddress mem (toByteMemoryAddress tileIdx col) esize
    (getElementInVectorFromLSB data 0 esize.bits)
  (List.range' 1 (m.dim esize - 1)).foldl
    (fun newMem i => setElementAtAddress newMem
      (toByteMemoryAddress (verticalRow m tileIdx i esize) col) esize
      (getElementInVectorFromLSB data i esize.bits)) first

/-- The ZA memory that `UpdateSingleTypedSlice` assigns. -/
def updateSingleTypedSlice (mem : ZaMem m) (isVertical : Bool) (tileIdx : BitVec b)
    (sliceIdx : BitVec a) (esize : ElementSize) (data : BitVec m.svl) : ZaMem m :=
  if isVertical then setTypedVerticalSlice mem sliceIdx tileIdx esize data
  else setTypedHorizontalSlice mem sliceIdx tileIdx esize data

/-! The public helpers of the tests take `int` indices; `BvConst` keeps the low
bits of the 64-bit value that an `int` converts to. -/

/-- An `int` where a `NumericType` is expected. -/
def intToNumeric (n : BitVec 32) : BitVec 64 := n.signExtend 64

def getHorizontalSlice (mem : ZaMem m) (tileIdx rowIdx : BitVec 32) (esize : ElementSize) :
    BitVec m.svl :=
  getTypedSlice mem false (BitVec.ofNat m.zaAddrWidth (intToNumeric tileIdx).toNat)
    (BitVec.ofNat m.zaAddrWidth (intToNumeric rowIdx).toNat) esize

def getVerticalSlice (mem : ZaMem m) (tileIdx colIdx : BitVec 32) (esize : ElementSize) :
    BitVec m.svl :=
  getTypedSlice mem true (BitVec.ofNat m.zaAddrWidth (intToNumeric tileIdx).toNat)
    (BitVec.ofNat m.zaAddrWidth (intToNumeric colIdx).toNat) esize

end Slices

/-- The update of `za` made by `ResetSMEState`. -/
def resetSMEState (za : ZaMem m) : ZaMem m :=
  (List.range m.zaByteSize).foldl
    (fun newZa i => Function.update newZa (BitVec.ofNat m.zaAddrWidth i) (0 : BitVec 8)) za

end ArmSmeIla
