import ArmSmeIla.Foundation.Lines
import ArmSmeIla.Views.TileMatrix

/-!
# Typed slices as lines

`GetTypedSlice` and `UpdateSingleTypedSlice`, for either orientation at once:
the slice is a line of the matrix family. The bytes a slice consists of are
described by the rows and columns of the square alone, so that "the slice's
bytes" means something before any accessor is looked at.
-/

namespace ArmSmeIla

open Packing Lines

variable {m : ArmSme} {esize : ElementSize}

/-! ## Reading and writing -/

section Accessors

variable {a b : ℕ} {tileIdx : BitVec b} {t : TileIdx esize} (ht : tileIdx.toNat = t)
  (mem : ZaMem m) (isVertical : Bool) (sliceIdx : BitVec a) (data : BitVec m.svl)

include ht

theorem lanes_getTypedSlice :
    lanes esize (getTypedSlice mem isVertical tileIdx sliceIdx esize) =
      line isVertical (tiles esize mem) t (sliceOf m esize sliceIdx) := by
  cases isVertical with
  | false => exact lanes_getTypedHorizontalSlice mem sliceIdx ht
  | true => exact lanes_getTypedVerticalSlice mem sliceIdx ht

theorem tiles_updateSingleTypedSlice :
    tiles esize (updateSingleTypedSlice mem isVertical tileIdx sliceIdx esize data) =
      setLine isVertical (tiles esize mem) t (sliceOf m esize sliceIdx) (lanes esize data) := by
  cases isVertical with
  | false => exact tiles_setTypedHorizontalSlice mem sliceIdx data ht
  | true => exact tiles_setTypedVerticalSlice mem sliceIdx data ht

theorem updateSingleTypedSlice_byteOf (t' : TileIdx esize) (r c : SliceIdx m esize)
    (i : Fin esize.bytes) :
    updateSingleTypedSlice mem isVertical tileIdx sliceIdx esize data (byteOf t' r c i) =
      if t' = t ∧ (if isVertical then c else r) = sliceOf m esize sliceIdx then
        elem (lanes esize data (if isVertical then r else c)) i 8
      else mem (byteOf t' r c i) := by
  cases isVertical with
  | false => exact setTypedHorizontalSlice_byteOf mem sliceIdx data ht t' r c i
  | true => exact setTypedVerticalSlice_byteOf mem sliceIdx data ht t' r c i

end Accessors

/-! ## The bytes of a slice -/

/-- The byte at `addr` is on slice `k` of tile `t`. A horizontal slice is row
`t + k * bytes` of the square; a vertical one takes every `bytes`-th row from
row `t` on, and there the `k`-th group of `bytes` columns from the right. -/
def InSlice (esize : ElementSize) (isVertical : Bool) (t : TileIdx esize) (k : SliceIdx m esize)
    (addr : BitVec m.zaAddrWidth) : Prop :=
  if isVertical then
    addr.toNat / m.svlB % esize.bytes = t ∧
      (m.svlB - 1 - addr.toNat % m.svlB) / esize.bytes = k
  else
    addr.toNat / m.svlB = t + k * esize.bytes

instance (isVertical : Bool) (t : TileIdx esize) (k : SliceIdx m esize)
    (addr : BitVec m.zaAddrWidth) : Decidable (InSlice esize isVertical t k addr) := by
  unfold InSlice
  infer_instance

section Coordinates

variable (t : TileIdx esize) (r c : SliceIdx m esize) (i : Fin esize.bytes)

theorem byteOf_row : (byteOf t r c i).toNat / m.svlB = t + r * esize.bytes := by
  have hcol := tileCol_lt c.isLt (b := esize.bytes - 1 - i) (by have := i.isLt; omega)
  rw [byteOf, tileByteAddr, byteAddr_toNat (tileRow_lt t.isLt r.isLt) hcol, offset_div hcol,
    tileRow]

/-- Counted from the right end of its row, the byte is number `c * bytes + i`. -/
theorem byteOf_col : m.svlB - 1 - (byteOf t r c i).toNat % m.svlB = c * esize.bytes + i := by
  have hcol := tileCol_lt c.isLt (b := esize.bytes - 1 - i) (by have := i.isLt; omega)
  have hadd := tileCol_add c.isLt
  have hsplit : ((c : ℕ) + 1) * esize.bytes = c * esize.bytes + esize.bytes := by ring
  rw [byteOf, tileByteAddr, byteAddr_toNat (tileRow_lt t.isLt r.isLt) hcol,
    Nat.mul_add_mod_of_lt hcol]
  have := i.isLt
  omega

end Coordinates

/-- In tile coordinates a slice fixes the tile and one of the two indices. -/
theorem inSlice_byteOf (isVertical : Bool) (t t' : TileIdx esize) (k r c : SliceIdx m esize)
    (i : Fin esize.bytes) :
    InSlice esize isVertical t k (byteOf t' r c i) ↔
      t' = t ∧ (if isVertical then c else r) = k := by
  have hrow : ((t' : ℕ) + r * esize.bytes) % esize.bytes = t' := by
    rw [Nat.add_mul_mod_self_right, Nat.mod_eq_of_lt t'.isLt]
  cases isVertical with
  | false =>
      rw [InSlice, if_neg Bool.false_ne_true, if_neg Bool.false_ne_true, byteOf_row]
      constructor
      · intro h
        obtain ⟨ht, hr⟩ := tileRow_inj t'.isLt t.isLt h
        exact ⟨Fin.ext ht, Fin.ext hr⟩
      · rintro ⟨rfl, rfl⟩
        rfl
  | true =>
      rw [InSlice, if_pos rfl, if_pos rfl, byteOf_row, byteOf_col, hrow, offset_div i.isLt,
        Fin.ext_iff, Fin.ext_iff]

/-- Byte `i` of lane `j` of a slice. -/
def sliceByte (isVertical : Bool) (t : TileIdx esize) (k j : SliceIdx m esize)
    (i : Fin esize.bytes) : BitVec m.zaAddrWidth :=
  if isVertical then byteOf t j k i else byteOf t k j i

theorem inSlice_iff_sliceByte (isVertical : Bool) (t : TileIdx esize) (k : SliceIdx m esize)
    (addr : BitVec m.zaAddrWidth) :
    InSlice esize isVertical t k addr ↔ ∃ j i, addr = sliceByte isVertical t k j i := by
  constructor
  · intro h
    obtain ⟨t', r, c, i, rfl⟩ := exists_byteOf esize addr
    obtain ⟨rfl, rfl⟩ := (inSlice_byteOf isVertical t t' k r c i).mp h
    refine ⟨if isVertical then r else c, i, ?_⟩
    cases isVertical <;> rfl
  · rintro ⟨j, i, rfl⟩
    cases isVertical <;> exact (inSlice_byteOf _ t t k _ _ i).mpr ⟨rfl, rfl⟩

/-- Every byte is on exactly one slice of either orientation. -/
theorem existsUnique_inSlice (esize : ElementSize) (isVertical : Bool)
    (addr : BitVec m.zaAddrWidth) :
    ∃! s : TileIdx esize × SliceIdx m esize, InSlice esize isVertical s.1 s.2 addr := by
  obtain ⟨t, r, c, i, rfl⟩ := exists_byteOf esize addr
  refine ⟨(t, if isVertical then c else r), ?_, ?_⟩
  · exact (inSlice_byteOf isVertical t t _ r c i).mpr ⟨rfl, rfl⟩
  · rintro ⟨t', k'⟩ h
    obtain ⟨rfl, rfl⟩ := (inSlice_byteOf isVertical t' t k' r c i).mp h
    rfl

/-- The bytes of a tile, in either orientation: every `bytes`-th row. -/
theorem exists_inSlice_iff (isVertical : Bool) (t : TileIdx esize) (addr : BitVec m.zaAddrWidth) :
    (∃ k, InSlice esize isVertical t k addr) ↔ addr.toNat / m.svlB % esize.bytes = t := by
  obtain ⟨t', r, c, i, rfl⟩ := exists_byteOf esize addr
  rw [byteOf_row, Nat.add_mul_mod_self_right, Nat.mod_eq_of_lt t'.isLt]
  constructor
  · rintro ⟨k, h⟩
    exact congrArg Fin.val ((inSlice_byteOf isVertical t t' k r c i).mp h).1
  · intro h
    obtain rfl := Fin.ext h
    exact ⟨_, (inSlice_byteOf isVertical t' t' _ r c i).mpr ⟨rfl, rfl⟩⟩

section Accessors

variable {a b : ℕ} {tileIdx : BitVec b} {t : TileIdx esize} (ht : tileIdx.toNat = t)
  (mem : ZaMem m) (isVertical : Bool) (sliceIdx : BitVec a) (data : BitVec m.svl)

include ht

theorem updateSingleTypedSlice_outside {addr : BitVec m.zaAddrWidth}
    (h : ¬ InSlice esize isVertical t (sliceOf m esize sliceIdx) addr) :
    updateSingleTypedSlice mem isVertical tileIdx sliceIdx esize data addr = mem addr := by
  obtain ⟨t', r, c, i, rfl⟩ := exists_byteOf esize addr
  rw [updateSingleTypedSlice_byteOf ht, if_neg]
  exact fun h' => h ((inSlice_byteOf isVertical t t' _ r c i).mpr h')

/-- The bytes on the slice are the ones a write can reach. -/
theorem inSlice_iff_written (addr : BitVec m.zaAddrWidth) :
    InSlice esize isVertical t (sliceOf m esize sliceIdx) addr ↔
      ∃ (mem : ZaMem m) (data : BitVec m.svl),
        updateSingleTypedSlice mem isVertical tileIdx sliceIdx esize data addr ≠ mem addr := by
  constructor
  · intro h
    obtain ⟨t', r, c, i, rfl⟩ := exists_byteOf esize addr
    refine ⟨fun _ => 1, 0, ?_⟩
    rw [updateSingleTypedSlice_byteOf ht, if_pos ((inSlice_byteOf isVertical t t' _ r c i).mp h)]
    simp [lanes]
  · rintro ⟨mem, data, h⟩
    by_contra hout
    exact h (updateSingleTypedSlice_outside ht mem isVertical sliceIdx data hout)

theorem elem_getTypedSlice (j : SliceIdx m esize) (i : Fin esize.bytes) :
    elem (lanes esize (getTypedSlice mem isVertical tileIdx sliceIdx esize) j) i 8 =
      mem (sliceByte isVertical t (sliceOf m esize sliceIdx) j i) := by
  rw [lanes_getTypedSlice ht, line_apply]
  cases isVertical <;> exact elem_tiles mem t _ _ i

/-- A slice is the same in two memories exactly when its bytes are. -/
theorem getTypedSlice_eq_iff (mem' : ZaMem m) :
    getTypedSlice mem' isVertical tileIdx sliceIdx esize =
        getTypedSlice mem isVertical tileIdx sliceIdx esize ↔
      ∀ addr, InSlice esize isVertical t (sliceOf m esize sliceIdx) addr →
        mem' addr = mem addr := by
  constructor
  · intro h addr hin
    obtain ⟨j, i, rfl⟩ := (inSlice_iff_sliceByte ..).mp hin
    rw [← elem_getTypedSlice ht mem', ← elem_getTypedSlice ht mem, h]
  · intro h
    apply lanes_injective esize
    funext j
    apply ext_elem esize.bits_eq
    intro i hi
    rw [elem_getTypedSlice ht mem' isVertical sliceIdx j ⟨i, hi⟩,
      elem_getTypedSlice ht mem isVertical sliceIdx j ⟨i, hi⟩]
    exact h _ ((inSlice_iff_sliceByte ..).mpr ⟨j, _, rfl⟩)

/-- The bytes on the slice are also the ones a read depends on. -/
theorem inSlice_iff_read (addr : BitVec m.zaAddrWidth) :
    InSlice esize isVertical t (sliceOf m esize sliceIdx) addr ↔
      ∃ (mem : ZaMem m) (x : BitVec 8),
        getTypedSlice (Function.update mem addr x) isVertical tileIdx sliceIdx esize ≠
          getTypedSlice mem isVertical tileIdx sliceIdx esize := by
  constructor
  · intro h
    refine ⟨fun _ => 0, 1, fun heq => ?_⟩
    have hbyte := (getTypedSlice_eq_iff ht _ isVertical sliceIdx _).mp heq addr h
    rw [Function.update_self] at hbyte
    exact absurd hbyte (by decide)
  · rintro ⟨mem, x, hne⟩
    by_contra hout
    apply hne
    rw [getTypedSlice_eq_iff ht]
    intro addr' hin
    have hother : addr' ≠ addr := fun heq => hout (heq ▸ hin)
    exact Function.update_of_ne hother ..

/-! ## Lens laws of the accessors -/

theorem getTypedSlice_updateSingleTypedSlice :
    getTypedSlice (updateSingleTypedSlice mem isVertical tileIdx sliceIdx esize data) isVertical
      tileIdx sliceIdx esize = data := by
  apply lanes_injective esize
  rw [lanes_getTypedSlice ht, tiles_updateSingleTypedSlice ht, line_setLine]

theorem updateSingleTypedSlice_sliceByte (j : SliceIdx m esize) (i : Fin esize.bytes) :
    updateSingleTypedSlice mem isVertical tileIdx sliceIdx esize data
        (sliceByte isVertical t (sliceOf m esize sliceIdx) j i) =
      elem (lanes esize data j) i 8 := by
  have hread := elem_getTypedSlice ht (updateSingleTypedSlice mem isVertical tileIdx sliceIdx esize
    data) isVertical sliceIdx j i
  rw [getTypedSlice_updateSingleTypedSlice ht] at hread
  exact hread.symm

theorem updateSingleTypedSlice_getTypedSlice :
    updateSingleTypedSlice mem isVertical tileIdx sliceIdx esize
      (getTypedSlice mem isVertical tileIdx sliceIdx esize) = mem := by
  apply tiles_injective esize
  rw [tiles_updateSingleTypedSlice ht, lanes_getTypedSlice ht, setLine_line]

theorem updateSingleTypedSlice_updateSingleTypedSlice (data' : BitVec m.svl) :
    updateSingleTypedSlice (updateSingleTypedSlice mem isVertical tileIdx sliceIdx esize data)
        isVertical tileIdx sliceIdx esize data' =
      updateSingleTypedSlice mem isVertical tileIdx sliceIdx esize data' := by
  apply tiles_injective esize
  rw [tiles_updateSingleTypedSlice ht, tiles_updateSingleTypedSlice ht,
    tiles_updateSingleTypedSlice ht, setLine_setLine]

end Accessors

/-- Two names of one slice. -/
theorem getTypedSlice_congr {a a' b b' : ℕ} {tileIdx : BitVec b} {tileIdx' : BitVec b'}
    {sliceIdx : BitVec a} {sliceIdx' : BitVec a'} {t : TileIdx esize} (ht : tileIdx.toNat = t)
    (ht' : tileIdx'.toNat = t) (hslice : sliceOf m esize sliceIdx' = sliceOf m esize sliceIdx)
    (mem : ZaMem m) (isVertical : Bool) :
    getTypedSlice mem isVertical tileIdx' sliceIdx' esize =
      getTypedSlice mem isVertical tileIdx sliceIdx esize := by
  apply lanes_injective esize
  rw [lanes_getTypedSlice ht', lanes_getTypedSlice ht, hslice]

/-! ## Rows of ZA -/

section Rows

variable {a b : ℕ} {tileIdx : BitVec b} {t : TileIdx esize} (ht : tileIdx.toNat = t)
  (mem : ZaMem m) (rowIdx : BitVec a)

include ht

/-- Any horizontal slice is a row of ZA, that is a slice of `ZA0.B`. -/
theorem horizontalRow_eq_row :
    horizontalRow m rowIdx tileIdx esize =
      horizontalRow m (BitVec.ofNat m.zaAddrWidth (t + sliceOf m esize rowIdx * esize.bytes))
        0#m.zaAddrWidth .byte := by
  have hrow := tileRow_lt t.isLt (sliceOf m esize rowIdx).isLt
  have hlt := lt_zaAddr (Nat.le_of_lt hrow)
  apply BitVec.eq_of_toNat_eq
  rw [horizontalRow_toNat _ _ (ht ▸ t.isLt),
    horizontalRow_toNat _ _ (by rw [BitVec.toNat_ofNat, Nat.zero_mod]; decide), ht,
    BitVec.toNat_ofNat, BitVec.toNat_ofNat, m.dim_byte]
  unfold tileRow at hrow hlt ⊢
  rw [Nat.mod_eq_of_lt hlt, Nat.mod_eq_of_lt hrow, Nat.zero_mod, Nat.zero_add]
  exact (Nat.mul_one _).symm

theorem getTypedHorizontalSlice_eq_row :
    getTypedHorizontalSlice mem rowIdx tileIdx esize =
      getTypedHorizontalSlice mem
        (BitVec.ofNat m.zaAddrWidth (t + sliceOf m esize rowIdx * esize.bytes)) 0#m.zaAddrWidth
        .byte := by
  unfold getTypedHorizontalSlice
  rw [horizontalRow_eq_row ht]

theorem setTypedHorizontalSlice_eq_row (data : BitVec m.svl) :
    setTypedHorizontalSlice mem rowIdx tileIdx esize data =
      setTypedHorizontalSlice mem
        (BitVec.ofNat m.zaAddrWidth (t + sliceOf m esize rowIdx * esize.bytes)) 0#m.zaAddrWidth
        .byte data := by
  unfold setTypedHorizontalSlice
  rw [horizontalRow_eq_row ht]

end Rows

end ArmSmeIla
