import ArmSmeIla.Model.Vectors

/-!
# DRAM accesses

The endianness-sensitive helpers of `arm.cc`, with `USE_DRAM_MEMSTATE` set as
in `config.h`. The lowest address holds the most significant byte; an element
is byte-swapped when DRAM's endianness differs from ZA's, and the elements of
a vector go from the least significant one at the lowest address upwards.
-/

namespace ArmSmeIla

open Packing

variable {m : ArmSme}

/-- `_SwapBytesInVector`: `push_back` from the LSB reverses the bytes. -/
def swapBytesInVector {esize : ElementSize} (vector : BitVec esize.bits)
    (doSwap : Bool := true) : BitVec esize.bits :=
  if !doSwap || esize.bits == 8 then
    vector
  else
    let bytes := (List.range (esize.bits / 8)).map fun i => getElementInVectorFromLSB vector i 8
    (concatenate bytes).cast (by cases esize <;> rfl)

/-- Swaps if the endianness differs. -/
def beToDramEndian (m : ArmSme) {esize : ElementSize} (vector : BitVec esize.bits) :
    BitVec esize.bits :=
  let bothSameEndianness := m.zaIsLE == m.dramIsLE
  swapBytesInVector vector (!bothSameEndianness)

/-- The same swap function, just a different name. -/
def dramEndianToBe (m : ArmSme) {esize : ElementSize} (vector : BitVec esize.bits) :
    BitVec esize.bits :=
  beToDramEndian m vector

def dramGetByteNoEndian (dram : DramMem) (addr : BitVec 128) : BitVec 8 :=
  dram addr

/-- Reads increasing addresses and, if asked, converts the element to ZA's
endianness. -/
def dramGetElementAsZaEndian (m : ArmSme) (dram : DramMem) (baseAddr : BitVec 128)
    (esize : ElementSize) (convertEndianness : Bool := true) : BitVec esize.bits :=
  let byteAt (i : ℕ) : BitVec 8 := dramGetByteNoEndian dram (baseAddr + BitVec.ofNat 128 i)
  let result : BitVec esize.bits :=
    (appendAll (dramGetByteNoEndian dram baseAddr)
      ((List.range' 1 (esize.bits / 8 - 1)).map byteAt)).cast (by cases esize <;> rfl)
  if convertEndianness then dramEndianToBe m result else result

/-- Stores each byte exactly as `[MSB … LSB]`, the MSB at the lowest address. -/
def dramSetElementNoEndian (dram : DramMem) (baseAddr : BitVec 128) (esize : ElementSize)
    (data : BitVec esize.bits) : DramMem :=
  (List.range (esize.bits / 8)).foldl (fun newDram i =>
    Function.update newDram (baseAddr + BitVec.ofNat 128 i)
      (getElementInVectorFromMSB data i 8 esize.bits)) dram

/-- The elements read from `addr` upwards, `addr` advancing by one element at a
time. -/
def dramGetElements (m : ArmSme) (dram : DramMem) (esize : ElementSize)
    (convertEndianness : Bool) : (elements : ℕ) → (addr : BitVec 128) → List (BitVec esize.bits)
  | 0, _ => []
  | elements + 1, addr =>
      dramGetElementAsZaEndian m dram addr esize convertEndianness ::
        dramGetElements m dram esize convertEndianness elements
          (addr + BitVec.ofNat 128 (esize.bits / 8))

theorem length_dramGetElements (m : ArmSme) (dram : DramMem) (esize : ElementSize)
    (convertEndianness : Bool) (elements : ℕ) (addr : BitVec 128) :
    (dramGetElements m dram esize convertEndianness elements addr).length = elements := by
  induction elements generalizing addr with
  | zero => rfl
  | succ n ih => rw [dramGetElements, List.length_cons, ih]

def dramGetVectorAsZaEndian (m : ArmSme) (dram : DramMem) (baseAddr : BitVec 128)
    (esize : ElementSize) (convertEndianness : Bool := true) : BitVec m.svl :=
  let elems := dramGetElements m dram esize convertEndianness (m.dim esize) baseAddr
  (concatenate elems.reverse).cast
    (by rw [List.length_reverse, length_dramGetElements, m.dim_mul_bits])

/-! The overloads for a `size_t` address, which the tests use. They count the
address up in 64 bits; `Load` makes a constant of the address width. -/

def dramGetByteNoEndianSizeT (dram : DramMem) (addr : BitVec 64) : BitVec 8 :=
  dram (addr.setWidth 128)

def dramGetElementAsZaEndianSizeT (m : ArmSme) (dram : DramMem) (addr : BitVec 64)
    (esize : ElementSize) (convertEndianness : Bool) : BitVec esize.bits :=
  let byteAt (i : ℕ) : BitVec 8 := dramGetByteNoEndianSizeT dram (addr + BitVec.ofNat 64 i)
  let result : BitVec esize.bits :=
    (appendAll (dramGetByteNoEndianSizeT dram addr)
      ((List.range' 1 (esize.bits / 8 - 1)).map byteAt)).cast (by cases esize <;> rfl)
  if convertEndianness then dramEndianToBe m result else result

/-- One iteration: replaces element `i` of the result, which starts as zero and
is `SVL` bits wide whatever `vector_length_bits` is. -/
def dramGetStepSizeT (m : ArmSme) (dram : DramMem) (esize : ElementSize)
    (convertEndianness : Bool) (acc : BitVec m.svl × BitVec 64) (i : ℕ) :
    BitVec m.svl × BitVec 64 :=
  let dramElemZaEndian := dramGetElementAsZaEndianSizeT m dram acc.2 esize convertEndianness
  (setElementInVectorFromLSB acc.1 i esize.bits dramElemZaEndian,
    acc.2 + BitVec.ofNat 64 (esize.bits / 8))

def dramGetVectorAsZaEndianSizeT (m : ArmSme) (dram : DramMem) (baseAddr : BitVec 64)
    (esize : ElementSize) (vectorLengthBits : ℕ) (convertEndianness : Bool) : BitVec m.svl :=
  let elements := vectorLengthBits / esize.bits
  ((List.range elements).foldl (dramGetStepSizeT m dram esize convertEndianness)
    (0, baseAddr)).1

/-- The loop of `DRAM_SetVectorAsDramEndian` over the elements, in order: the
address, the memory built so far and the elements pushed for `WB_svl_vector`. -/
structure WriteBack (esize : ElementSize) where
  addr : BitVec 128
  newDram : DramMem
  wbElems : List (BitVec esize.bits)

def dramSetStep (m : ArmSme) {esize : ElementSize} (vector : BitVec m.svl)
    (convertEndianness : Bool) (wb : WriteBack esize) (i : ℕ) : WriteBack esize :=
  let srcElem := getElementInVectorFromLSB vector i esize.bits
  let srcElem := if convertEndianness then beToDramEndian m srcElem else srcElem
  { addr := wb.addr + BitVec.ofNat 128 (esize.bits / 8)
    newDram := dramSetElementNoEndian wb.newDram wb.addr esize srcElem
    wbElems := wb.wbElems ++ [srcElem] }

def dramSetLoop (m : ArmSme) (dram : DramMem) (baseAddr : BitVec 128) (vector : BitVec m.svl)
    (esize : ElementSize) (convertEndianness : Bool) : WriteBack esize :=
  (List.range (m.dim esize)).foldl (dramSetStep m vector convertEndianness)
    { addr := baseAddr, newDram := dram, wbElems := [] }

theorem length_wbElems (m : ArmSme) (dram : DramMem) (baseAddr : BitVec 128)
    (vector : BitVec m.svl) (esize : ElementSize) (convertEndianness : Bool) :
    (dramSetLoop m dram baseAddr vector esize convertEndianness).wbElems.length =
      m.dim esize := by
  apply Loops.foldl_range_induction (fun i (wb : WriteBack esize) => wb.wbElems.length = i)
  · rfl
  · intro i _ wb h
    simp [dramSetStep, h]

/-- `DRAM_SetVectorAsDramEndian`: updates DRAM and captures the write in
`WB_base_addr` and `WB_svl_vector`. -/
def dramSetVectorAsDramEndian (s : State m) (baseAddr : BitVec 128) (vector : BitVec m.svl)
    (esize : ElementSize) (convertEndianness : Bool := true) : State m :=
  let wb := dramSetLoop m s.dram baseAddr vector esize convertEndianness
  { s with
    dram := wb.newDram
    wbBaseAddr := baseAddr
    wbSvlVector := (concatenate wb.wbElems).cast (by rw [length_wbElems, m.dim_mul_bits]) }

end ArmSmeIla
