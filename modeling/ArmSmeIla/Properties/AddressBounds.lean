import ArmSmeIla.Views.CombineMatrix

/-!
# ZA addresses never wrap

The slice accessors compute in `ZA_ADDR_WIDTH` bits, just enough for the
`SVL_B * SVL_B` addresses. Every operation they perform is accounted for here:
none overflows or borrows, every constant and every zero-extension is exact,
and the values are the ones that exact integers give.
-/

namespace ArmSmeIla

open Packing

variable {m : ArmSme} {esize : ElementSize}

/-! ## Operations -/

section Flags

variable {w : ℕ} {x y : BitVec w}

theorem uaddOverflow_eq_false (h : x.toNat + y.toNat < 2 ^ w) : x.uaddOverflow y = false :=
  decide_eq_false (Nat.not_le.mpr h)

theorem umulOverflow_eq_false (h : x.toNat * y.toNat < 2 ^ w) : x.umulOverflow y = false :=
  decide_eq_false (Nat.not_le.mpr h)

theorem usubOverflow_eq_false (h : y.toNat ≤ x.toNat) : x.usubOverflow y = false :=
  decide_eq_false (Nat.not_lt.mpr h)

end Flags

theorem zaConst_toNat {n : ℕ} (h : n ≤ m.svlB) : (BitVec.ofNat m.zaAddrWidth n).toNat = n :=
  Nat.mod_eq_of_lt (lt_zaAddr h)

theorem zaExtend_toNat {a : ℕ} {x : BitVec a} (h : x.toNat ≤ m.svlB) :
    (x.setWidth m.zaAddrWidth).toNat = x.toNat := by
  rw [BitVec.toNat_setWidth]
  exact Nat.mod_eq_of_lt (lt_zaAddr h)

/-! ## Addresses of elements -/

/-- The address of an element of `n` bytes at `row` and `col`: both are inside
the square up to the last byte, no operation overflows, and the bytes are
consecutive in one row. -/
structure AddressExact (m : ArmSme) {a b : ℕ} (row : BitVec a) (col : BitVec b) (n : ℕ) : Prop where
  row_lt : row.toNat < m.svlB
  col_lt : ∀ i < n, col.toNat + i < m.svlB
  row_extend : (row.setWidth m.zaAddrWidth).toNat = row.toNat
  col_extend : (col.setWidth m.zaAddrWidth).toNat = col.toNat
  pitch : (BitVec.ofNat m.zaAddrWidth m.svlB).toNat = m.svlB
  mul : (row.setWidth m.zaAddrWidth).umulOverflow (BitVec.ofNat m.zaAddrWidth m.svlB) = false
  add : (row.setWidth m.zaAddrWidth * BitVec.ofNat m.zaAddrWidth m.svlB).uaddOverflow
    (col.setWidth m.zaAddrWidth) = false
  offset : ∀ i j, i + j < n →
    (toByteMemoryAddress (m := m) row col + BitVec.ofNat _ i).uaddOverflow (BitVec.ofNat _ j) =
      false
  value : ∀ i < n, (toByteMemoryAddress (m := m) row col + BitVec.ofNat _ i).toNat =
    row.toNat * m.svlB + col.toNat + i
  bound : ∀ i < n, row.toNat * m.svlB + col.toNat + i < m.svlB * m.svlB
  same_row : ∀ i < n,
    (toByteMemoryAddress (m := m) row col + BitVec.ofNat _ i).toNat / m.svlB = row.toNat

theorem addressExact {a b : ℕ} {row : BitVec a} {col : BitVec b} {n : ℕ} (hn : 0 < n)
    (hrow : row.toNat < m.svlB) (hcol : col.toNat + n ≤ m.svlB) : AddressExact m row col n := by
  have hrowExtend := zaExtend_toNat (m := m) (x := row) (by omega)
  have hcolExtend := zaExtend_toNat (m := m) (x := col) (by omega)
  have hpitch := zaConst_toNat (m := m) (n := m.svlB) le_rfl
  have hmul := offset_next_le hrow m.svlB
  have hsize := m.two_pow_zaAddrWidth
  have hvalue : ∀ i < n, (toByteMemoryAddress (m := m) row col + BitVec.ofNat _ i).toNat =
      row.toNat * m.svlB + (col.toNat + i) := by
    intro i hi
    rw [toByteMemoryAddress_eq, byteAddr_add, byteAddr_toNat hrow (by omega)]
  have hproduct : (row.setWidth m.zaAddrWidth * BitVec.ofNat m.zaAddrWidth m.svlB).toNat =
      row.toNat * m.svlB := by
    rw [BitVec.toNat_mul, hrowExtend, hpitch, Nat.mod_eq_of_lt]
    have := m.svlB_pos
    omega
  have hpos := m.svlB_pos
  refine ⟨hrow, fun i hi => by omega, hrowExtend, hcolExtend, hpitch, ?_, ?_, ?_, ?_,
    fun i hi => by omega, ?_⟩
  · apply umulOverflow_eq_false
    rw [hrowExtend, hpitch]
    omega
  · apply uaddOverflow_eq_false
    rw [hproduct, hcolExtend]
    omega
  · intro i j hij
    apply uaddOverflow_eq_false
    rw [hvalue i (by omega), zaConst_toNat (by omega)]
    omega
  · intro i hi
    rw [hvalue i hi, Nat.add_assoc]
  · intro i hi
    rw [hvalue i hi, offset_div (by omega)]

/-! ## Slices -/

section Slices

variable {a b : ℕ} (tileIdx : BitVec b) (sliceIdx : BitVec a) (esize : ElementSize)

/-- The arithmetic of a horizontal slice, with `t` the tile and `c` the row. -/
structure HorizontalExact (m : ArmSme) (t c : ℕ) : Prop where
  wrapped : (wrappedSliceIdx m sliceIdx esize).toNat = c
  tile_extend : (tileIdx.setWidth m.zaAddrWidth).toNat = t
  tiles : (BitVec.ofNat m.zaAddrWidth (m.numTiles esize)).toNat = m.numTiles esize
  mul : (wrappedSliceIdx m sliceIdx esize).umulOverflow
    (BitVec.ofNat m.zaAddrWidth (m.numTiles esize)) = false
  add : (tileIdx.setWidth m.zaAddrWidth).uaddOverflow
    (wrappedSliceIdx m sliceIdx esize * BitVec.ofNat m.zaAddrWidth (m.numTiles esize)) = false
  row : (horizontalRow m sliceIdx tileIdx esize).toNat = t + c * m.numTiles esize
  col : ∀ i < m.svlB, (BitVec.ofNat m.zaAddrWidth i).toNat = i
  address : ∀ i < m.svlB,
    AddressExact m (horizontalRow m sliceIdx tileIdx esize) (BitVec.ofNat m.zaAddrWidth i) 1

/-- The arithmetic of a vertical slice, with `t` the tile and `c` the column. The
row of the first element is the tile index itself. -/
structure VerticalExact (m : ArmSme) (t c : ℕ) : Prop where
  wrapped : (wrappedSliceIdx m sliceIdx esize).toNat = c
  size : (BitVec.ofNat m.zaAddrWidth esize.bytes).toNat = esize.bytes
  last : (BitVec.ofNat m.zaAddrWidth m.svlB).usubOverflow
    (BitVec.ofNat m.zaAddrWidth esize.bytes) = false
  mul : (wrappedSliceIdx m sliceIdx esize).umulOverflow
    (BitVec.ofNat m.zaAddrWidth esize.bytes) = false
  sub : (BitVec.ofNat m.zaAddrWidth m.svlB - BitVec.ofNat m.zaAddrWidth esize.bytes).usubOverflow
    (wrappedSliceIdx m sliceIdx esize * BitVec.ofNat m.zaAddrWidth esize.bytes) = false
  col : ((verticalCol m sliceIdx esize).toNat : ℤ) =
    ((m.svlB : ℤ) - esize.bytes) - c * esize.bytes
  tile_extend : (tileIdx.setWidth m.zaAddrWidth).toNat = t
  step : ∀ i < m.dim esize,
    (BitVec.ofNat m.zaAddrWidth (i * m.numTiles esize)).toNat = i * m.numTiles esize
  add : ∀ i < m.dim esize, (tileIdx.setWidth m.zaAddrWidth).uaddOverflow
    (BitVec.ofNat m.zaAddrWidth (i * m.numTiles esize)) = false
  row : ∀ i < m.dim esize, (verticalRow m tileIdx i esize).toNat = t + i * m.numTiles esize
  first : AddressExact m tileIdx (verticalCol m sliceIdx esize) esize.bytes
  address : ∀ i < m.dim esize,
    AddressExact m (verticalRow m tileIdx i esize) (verticalCol m sliceIdx esize) esize.bytes

variable {tileIdx} (ht : tileIdx.toNat < esize.bytes)

include ht

theorem horizontalExact :
    HorizontalExact tileIdx sliceIdx esize m tileIdx.toNat (sliceIdx.toNat % m.dim esize) := by
  have hc := Nat.mod_lt sliceIdx.toNat (m.dim_pos esize)
  have hbytes : esize.bytes ≤ m.svlB := Nat.le_trans esize.bytes_le m.svlB_ge
  have hrow := tileRow_lt ht hc
  have hlt := lt_zaAddr (Nat.le_of_lt hrow)
  have hwrapped := wrappedSliceIdx_toNat (m := m) sliceIdx esize
  have hextend := zaExtend_toNat (m := m) (x := tileIdx) (by omega)
  have htiles : (BitVec.ofNat m.zaAddrWidth (m.numTiles esize)).toNat = m.numTiles esize :=
    zaConst_toNat (by rw [m.numTiles_eq]; exact hbytes)
  have hvalue := horizontalRow_toNat (m := m) sliceIdx tileIdx ht
  have hproduct : (wrappedSliceIdx m sliceIdx esize *
      BitVec.ofNat m.zaAddrWidth (m.numTiles esize)).toNat =
        sliceIdx.toNat % m.dim esize * esize.bytes := by
    unfold tileRow at hlt
    rw [BitVec.toNat_mul, hwrapped, htiles, m.numTiles_eq]
    exact Nat.mod_eq_of_lt (by omega)
  unfold tileRow at hrow hlt hvalue
  refine ⟨hwrapped, hextend, htiles, ?_, ?_, ?_, fun i hi => zaConst_toNat hi.le, ?_⟩
  · apply umulOverflow_eq_false
    rw [hwrapped, htiles, m.numTiles_eq]
    omega
  · apply uaddOverflow_eq_false
    rw [hextend, hproduct]
    exact hlt
  · rw [hvalue, m.numTiles_eq]
  · intro i hi
    refine addressExact Nat.one_pos (hvalue ▸ hrow) ?_
    rw [zaConst_toNat hi.le]
    exact hi

theorem verticalExact :
    VerticalExact tileIdx sliceIdx esize m tileIdx.toNat (sliceIdx.toNat % m.dim esize) := by
  have hc := Nat.mod_lt sliceIdx.toNat (m.dim_pos esize)
  have hbytes : esize.bytes ≤ m.svlB := Nat.le_trans esize.bytes_le m.svlB_ge
  have hwrapped := wrappedSliceIdx_toNat (m := m) sliceIdx esize
  have hcol := verticalCol_toNat (m := m) sliceIdx esize
  generalize sliceIdx.toNat % m.dim esize = c at hc hwrapped hcol ⊢
  have hadd := tileCol_add hc
  rw [Nat.succ_mul] at hadd
  have hextend := zaExtend_toNat (m := m) (x := tileIdx) (by omega)
  have hsize : (BitVec.ofNat m.zaAddrWidth esize.bytes).toNat = esize.bytes := zaConst_toNat hbytes
  have hsvl : (BitVec.ofNat m.zaAddrWidth m.svlB).toNat = m.svlB := zaConst_toNat le_rfl
  have hlt := lt_zaAddr (m := m) le_rfl
  have hproduct :
      (wrappedSliceIdx m sliceIdx esize * BitVec.ofNat m.zaAddrWidth esize.bytes).toNat =
        c * esize.bytes := by
    rw [BitVec.toNat_mul, hwrapped, hsize]
    exact Nat.mod_eq_of_lt (by omega)
  have hstep : ∀ i < m.dim esize, i * m.numTiles esize + tileIdx.toNat < m.svlB := by
    intro i hi
    have hrow := tileRow_lt ht hi
    unfold tileRow at hrow
    rw [m.numTiles_eq]
    omega
  have hfits : (verticalCol m sliceIdx esize).toNat + esize.bytes ≤ m.svlB := by
    rw [hcol]
    omega
  refine ⟨hwrapped, hsize, ?_, ?_, ?_, ?_, hextend, ?_, ?_, ?_, ?_, ?_⟩
  · apply usubOverflow_eq_false
    rw [hsize, hsvl]
    exact hbytes
  · apply umulOverflow_eq_false
    rw [hwrapped, hsize]
    omega
  · apply usubOverflow_eq_false
    rw [hproduct, BitVec.toNat_sub_of_le (by rw [BitVec.le_def]; omega), hsize, hsvl]
    omega
  · rw [hcol]
    push_cast [← hadd]
    ring
  · intro i hi
    exact zaConst_toNat (by have := hstep i hi; omega)
  · intro i hi
    have := hstep i hi
    apply uaddOverflow_eq_false
    rw [hextend, zaConst_toNat (by omega)]
    omega
  · intro i hi
    rw [verticalRow_toNat tileIdx ht hi, m.numTiles_eq]
    rfl
  · exact addressExact esize.bytes_pos (by omega) hfits
  · intro i hi
    refine addressExact esize.bytes_pos ?_ hfits
    rw [verticalRow_toNat tileIdx ht hi]
    exact tileRow_lt ht hi

end Slices

/-- A tile selector counts modulo the number of tiles, and under it all address
arithmetic of the slice accessors is exact. -/
theorem za_addresses_exact (m : ArmSme) (selector : BitVec m.log2SvlB) {a : ℕ}
    (sliceIdx : BitVec a) (esize : ElementSize) :
    (toConstrainedTileIndex selector esize).toNat = selector.toNat % esize.bytes ∧
    HorizontalExact (toConstrainedTileIndex selector esize) sliceIdx esize m
      (selector.toNat % esize.bytes) (sliceIdx.toNat % m.dim esize) ∧
    VerticalExact (toConstrainedTileIndex selector esize) sliceIdx esize m
      (selector.toNat % esize.bytes) (sliceIdx.toNat % m.dim esize) := by
  have htile : (toConstrainedTileIndex selector esize).toNat = selector.toNat % esize.bytes :=
    toConstrainedTileIndex_toNat selector esize
  have ht : (toConstrainedTileIndex selector esize).toNat < esize.bytes :=
    htile ▸ Nat.mod_lt _ esize.bytes_pos
  rw [← htile]
  exact ⟨rfl, horizontalExact sliceIdx esize ht, verticalExact sliceIdx esize ht⟩

end ArmSmeIla
