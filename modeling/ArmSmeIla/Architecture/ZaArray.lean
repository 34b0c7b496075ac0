import ArmSmeIla.Views.CombineMatrix
import ArmSmeIla.Views.TypedSlices

/-!
# ZA as an array of vectors

What the architecture calls ZA: `SVL_B` vectors of `SVL` bits. A tile of one
element size is every `bytes`-th vector, and an update of a tile acts on one
vector at a time. The byte memory of the model is this array written down row
by row, and its matrices are the tiles of the array.
-/

namespace ArmSmeIla.Arch

open Packing Lines

variable {m : ArmSme} {esize : ElementSize}

/-- Rows of ZA: the slices of `ZA0.B`. -/
abbrev RowIdx (m : ArmSme) : Type := SliceIdx m .byte

/-- The ZA array. -/
abbrev ZaArray (m : ArmSme) : Type := RowIdx m → BitVec m.svl

/-- The vector with the given lanes. -/
def vectorOf (esize : ElementSize) (f : SliceIdx m esize → BitVec esize.bits) : BitVec m.svl :=
  concatenateFromLSB (m.dim_mul_bits esize) fun i => if h : i < m.dim esize then f ⟨i, h⟩ else 0

@[simp]
theorem lanes_vectorOf (f : SliceIdx m esize → BitVec esize.bits) :
    lanes esize (vectorOf esize f) = f := by
  funext i
  rw [vectorOf, lanes_concatenateFromLSB]
  exact dif_pos i.isLt

theorem eq_vectorOf_iff (v : BitVec m.svl) (f : SliceIdx m esize → BitVec esize.bits) :
    v = vectorOf esize f ↔ lanes esize v = f := by
  rw [← (lanes_injective (m := m) esize).eq_iff, lanes_vectorOf]

/-! ## Rows of a tile -/

/-- Row `r` of tile `t`. -/
def rowAt (t : TileIdx esize) (r : SliceIdx m esize) : RowIdx m :=
  ⟨tileRow esize t r, tileRow_lt t.isLt r.isLt⟩

/-- The tile a vector belongs to. -/
def tileIn (esize : ElementSize) (row : RowIdx m) : TileIdx esize :=
  ⟨row % esize.bytes, Nat.mod_lt _ esize.bytes_pos⟩

/-- Its row number there. -/
def rowIn (esize : ElementSize) (row : RowIdx m) : SliceIdx m esize :=
  ⟨row / esize.bytes, by
    rw [Nat.div_lt_iff_lt_mul esize.bytes_pos, m.dim_mul_bytes]
    exact row.isLt⟩

@[simp]
theorem tileIn_rowAt (t : TileIdx esize) (r : SliceIdx m esize) : tileIn esize (rowAt t r) = t := by
  apply Fin.ext
  show ((t : ℕ) + r * esize.bytes) % esize.bytes = t
  rw [Nat.add_mul_mod_self_right, Nat.mod_eq_of_lt t.isLt]

@[simp]
theorem rowIn_rowAt (t : TileIdx esize) (r : SliceIdx m esize) : rowIn esize (rowAt t r) = r := by
  apply Fin.ext
  show ((t : ℕ) + r * esize.bytes) / esize.bytes = r
  rw [Nat.add_mul_div_right _ _ esize.bytes_pos, Nat.div_eq_of_lt t.isLt, Nat.zero_add]

theorem rowAt_tileIn_rowIn (esize : ElementSize) (row : RowIdx m) :
    rowAt (tileIn esize row) (rowIn esize row) = row :=
  Fin.ext (Nat.mod_add_div' row esize.bytes)

/-! ## Updates -/

/-- Replace every element of tile `t`, given its row, its column and its value. -/
def mapTile (t : TileIdx esize)
    (f : SliceIdx m esize → SliceIdx m esize → BitVec esize.bits → BitVec esize.bits)
    (za : ZaArray m) : ZaArray m :=
  fun row =>
    if tileIn esize row = t then
      vectorOf esize fun c => f (rowIn esize row) c (lanes esize (za row) c)
    else za row

/-- Replace every element of one slice, given its position and its value. -/
def mapSlice (isVertical : Bool) (t : TileIdx esize) (k : SliceIdx m esize)
    (f : SliceIdx m esize → BitVec esize.bits → BitVec esize.bits) (za : ZaArray m) : ZaArray m :=
  mapTile t (fun r c old =>
    if (if isVertical then c else r) = k then f (if isVertical then r else c) old else old) za

/-- The elements of a slice. -/
def slice (isVertical : Bool) (t : TileIdx esize) (k : SliceIdx m esize) (za : ZaArray m) :
    BitVec m.svl :=
  vectorOf esize fun i =>
    if isVertical then lanes esize (za (rowAt t i)) k else lanes esize (za (rowAt t k)) i

/-! ## The memory as an array -/

/-- Row `row` of the byte memory, as `ZA[row]` reads it. -/
def rows (za : ZaMem m) : ZaArray m :=
  fun row => getTypedHorizontalSlice za (BitVec.ofNat m.zaAddrWidth row) (0#m.zaAddrWidth) .byte

/-- The elements of a vector of the array are those of the matrices. -/
theorem lanes_rows (za : ZaMem m) (t : TileIdx esize) (r : SliceIdx m esize) :
    lanes esize (rows za (rowAt t r)) = tiles esize za t r := by
  have hrow := getTypedHorizontalSlice_eq_row (tileIdx_toNat m t) za (BitVec.ofNat m.zaAddrWidth r)
  have hlanes := lanes_getTypedHorizontalSlice za (BitVec.ofNat m.zaAddrWidth r) (tileIdx_toNat m t)
  rw [sliceOf_ofNat] at hrow hlanes
  show lanes esize (getTypedHorizontalSlice za
    (BitVec.ofNat m.zaAddrWidth (t + r * esize.bytes)) 0#m.zaAddrWidth .byte) = _
  rw [← hrow, hlanes]
  rfl

theorem rows_injective : Function.Injective (rows (m := m)) := by
  intro za za' h
  apply tiles_injective .byte
  funext t
  apply Matrix.ext
  intro r c
  rw [← lanes_rows, ← lanes_rows, h]

/-- The vectors are the rows of the only tile of bytes. -/
theorem lanes_rows_byte (za : ZaMem m) (row : RowIdx m) :
    lanes .byte (rows za row) = tiles .byte za za0B row := by
  have hrow : rowAt za0B row = row := by
    apply Fin.ext
    show 0 + (row : ℕ) * 1 = row
    omega
  rw [← lanes_rows, hrow]

/-- Reading one vector of the array. -/
theorem getTypedHorizontalSlice_byte {a b : ℕ} {tileIdx : BitVec b} (ht : tileIdx.toNat = za0B)
    (za : ZaMem m) (rowIdx : BitVec a) :
    getTypedHorizontalSlice za rowIdx tileIdx .byte = rows za (sliceOf m .byte rowIdx) := by
  have hrow : ((za0B : TileIdx .byte) : ℕ) + sliceOf m .byte rowIdx * ElementSize.byte.bytes =
      sliceOf m .byte rowIdx := by
    show 0 + (sliceOf m .byte rowIdx : ℕ) * 1 = _
    omega
  rw [getTypedHorizontalSlice_eq_row ht, hrow]
  rfl

/-- Writing one vector of the array. -/
theorem rows_setTypedHorizontalSlice_byte {a b : ℕ} {tileIdx : BitVec b}
    (ht : tileIdx.toNat = za0B) (za : ZaMem m) (rowIdx : BitVec a) (data : BitVec m.svl) :
    rows (setTypedHorizontalSlice za rowIdx tileIdx .byte data) =
      Function.update (rows za) (sliceOf m .byte rowIdx) data := by
  funext row
  apply lanes_injective .byte
  rw [lanes_rows_byte, tiles_setTypedHorizontalSlice za rowIdx data ht, Function.update_self]
  by_cases h : row = sliceOf m .byte rowIdx
  · rw [h, Function.update_self]
    exact Matrix.updateRow_self
  · rw [Function.update_of_ne h, lanes_rows_byte]
    exact Matrix.updateRow_ne h

/-- Every array is written down by some memory: one row after the other. -/
theorem rows_surjective : Function.Surjective (rows (m := m)) := by
  intro g
  have hprefix : ∀ k ≤ m.svlB, ∃ za : ZaMem m, ∀ row : RowIdx m, (row : ℕ) < k →
      rows za row = g row := by
    intro k
    induction k with
    | zero => exact fun _ => ⟨fun _ => 0, fun row hrow => absurd hrow (Nat.not_lt_zero _)⟩
    | succ k ih =>
        intro hk
        rcases ih (Nat.le_of_succ_le hk) with ⟨za, hza⟩
        have hrow : sliceOf m .byte (BitVec.ofNat m.zaAddrWidth k) = (⟨k, hk⟩ : RowIdx m) :=
          sliceOf_ofNat (⟨k, hk⟩ : SliceIdx m .byte)
        refine ⟨setTypedHorizontalSlice za (BitVec.ofNat m.zaAddrWidth k)
          (BitVec.ofNat m.zaAddrWidth (za0B : TileIdx .byte)) .byte (g ⟨k, hk⟩), ?_⟩
        intro row hlt
        rw [rows_setTypedHorizontalSlice_byte (tileIdx_toNat m za0B), hrow]
        by_cases h : row = ⟨k, hk⟩
        · rw [h, Function.update_self]
        · have hne : (row : ℕ) ≠ k := fun hc => h (Fin.ext hc)
          rw [Function.update_of_ne h, hza row (by omega)]
  rcases hprefix m.svlB le_rfl with ⟨za, hza⟩
  exact ⟨za, funext fun row => hza row row.isLt⟩

/-- An update of one matrix is an update of the array, row by row. -/
theorem rows_of_tiles {za za' : ZaMem m} {t : TileIdx esize}
    {f : SliceIdx m esize → SliceIdx m esize → BitVec esize.bits → BitVec esize.bits}
    (h : tiles esize za' = Function.update (tiles esize za) t
      (Matrix.of fun r c => f r c (tiles esize za t r c))) :
    rows za' = mapTile t f (rows za) := by
  funext row
  have hrow := rowAt_tileIn_rowIn esize row
  apply lanes_injective esize
  rw [← hrow, lanes_rows, mapTile, hrow, h]
  by_cases ht : tileIn esize row = t
  · rw [if_pos ht, lanes_vectorOf, ht, Function.update_self]
    funext c
    rw [← hrow, lanes_rows, hrow, ht]
    rfl
  · rw [if_neg ht, Function.update_of_ne ht, ← lanes_rows, hrow]

/-- Writing a slice, when the new value is given element by element. -/
theorem rows_updateSingleTypedSlice {a b : ℕ} {tileIdx : BitVec b} {t : TileIdx esize}
    (ht : tileIdx.toNat = t) (za : ZaMem m) (isVertical : Bool) (sliceIdx : BitVec a)
    {data : BitVec m.svl} {f : SliceIdx m esize → BitVec esize.bits → BitVec esize.bits}
    (hdata : ∀ i, lanes esize data i =
      f i (line isVertical (tiles esize za) t (sliceOf m esize sliceIdx) i)) :
    rows (updateSingleTypedSlice za isVertical tileIdx sliceIdx esize data) =
      mapSlice isVertical t (sliceOf m esize sliceIdx) f (rows za) := by
  apply rows_of_tiles
  rw [tiles_updateSingleTypedSlice ht]
  funext t'
  apply Matrix.ext
  intro r c
  rw [setLine_apply]
  by_cases h : t' = t
  · subst h
    rw [Function.update_self, Matrix.of_apply]
    by_cases hk : (if isVertical then c else r) = sliceOf m esize sliceIdx
    · rw [if_pos ⟨rfl, hk⟩, if_pos hk, hdata, line_apply, ← hk]
      cases isVertical <;> rfl
    · rw [if_neg fun hc => hk hc.2, if_neg hk]
  · rw [if_neg fun hc => h hc.1, Function.update_of_ne h]

/-- Reading a slice. -/
theorem getTypedSlice_eq_slice {a b : ℕ} {tileIdx : BitVec b} {t : TileIdx esize}
    (ht : tileIdx.toNat = t) (za : ZaMem m) (isVertical : Bool) (sliceIdx : BitVec a) :
    getTypedSlice za isVertical tileIdx sliceIdx esize =
      slice isVertical t (sliceOf m esize sliceIdx) (rows za) := by
  rw [slice, eq_vectorOf_iff, lanes_getTypedSlice ht]
  funext i
  rw [line_apply, lanes_rows, lanes_rows]

end ArmSmeIla.Arch
