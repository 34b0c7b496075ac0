import ArmSmeIla.Views.TypedSlices

/-!
# Typed slices of ZA

What a user of the slice functions relies on: reads and writes of a slice obey
the lens laws, the two orientations are transposes of one another, and the
tiles of one element size share no byte while tiles of different sizes nest.
-/

namespace ArmSmeIla

open Packing Lines

section Slices

variable (m : ArmSme) (esize : ElementSize)

/-! ## Lenses -/

/-- A slice and its setter, of either orientation, form a lawful lens that
touches the bytes of the slice only. -/
theorem typedSlice_lens (isVertical : Bool) {a b : ℕ} (tileIdx : BitVec b)
    (ht : tileIdx.toNat < esize.bytes) (sliceIdx : BitVec a) (za : ZaMem m) :
    (∀ data, getTypedSlice (updateSingleTypedSlice za isVertical tileIdx sliceIdx esize data)
      isVertical tileIdx sliceIdx esize = data) ∧
    updateSingleTypedSlice za isVertical tileIdx sliceIdx esize
      (getTypedSlice za isVertical tileIdx sliceIdx esize) = za ∧
    (∀ data addr,
      ¬ InSlice esize isVertical ⟨tileIdx.toNat, ht⟩ (sliceOf m esize sliceIdx) addr →
        updateSingleTypedSlice za isVertical tileIdx sliceIdx esize data addr = za addr) ∧
    ∀ data data', updateSingleTypedSlice
        (updateSingleTypedSlice za isVertical tileIdx sliceIdx esize data)
        isVertical tileIdx sliceIdx esize data' =
      updateSingleTypedSlice za isVertical tileIdx sliceIdx esize data' := by
  have htile : tileIdx.toNat = ((⟨tileIdx.toNat, ht⟩ : TileIdx esize) : ℕ) := rfl
  refine ⟨?_, ?_, ?_, ?_⟩
  · exact getTypedSlice_updateSingleTypedSlice htile za isVertical sliceIdx
  · exact updateSingleTypedSlice_getTypedSlice htile za isVertical sliceIdx
  · intro data addr hout
    exact updateSingleTypedSlice_outside htile za isVertical sliceIdx data hout
  · exact updateSingleTypedSlice_updateSingleTypedSlice htile za isVertical sliceIdx

/-- The edge case `dim = 1`: a vertical slice of `ZA3.Q` at `SVL = 128`. -/
theorem typedSlice_lens_quad :
    getTypedSlice (updateSingleTypedSlice (m := smeDramLE) (fun _ => 0xAB) true 3#4 5#32 .quad 7)
      true 3#4 5#32 .quad = 7 :=
  (typedSlice_lens smeDramLE .quad true 3#4 (by decide) 5#32 fun _ => 0xAB).1 7

/-! ## Transposition -/

/-- Element `c` of horizontal slice `r` is element `r` of vertical slice `c`,
and a write through one orientation changes one element of each slice of the
other. -/
theorem slices_transpose {a a' b : ℕ} (tileIdx : BitVec b) (ht : tileIdx.toNat < esize.bytes)
    (rowIdx : BitVec a) (colIdx : BitVec a') (za : ZaMem m) :
    let r := rowIdx.toNat % m.dim esize
    let c := colIdx.toNat % m.dim esize
    getElementInVectorFromLSB (getTypedHorizontalSlice za rowIdx tileIdx esize) c esize.bits =
      getElementInVectorFromLSB (getTypedVerticalSlice za colIdx tileIdx esize) r esize.bits ∧
    (∀ data, ∀ i < m.dim esize,
      getElementInVectorFromLSB (getTypedHorizontalSlice
          (setTypedVerticalSlice za colIdx tileIdx esize data) rowIdx tileIdx esize) i esize.bits =
        if i = c then getElementInVectorFromLSB data r esize.bits
        else getElementInVectorFromLSB (getTypedHorizontalSlice za rowIdx tileIdx esize) i
          esize.bits) ∧
    ∀ data, ∀ i < m.dim esize,
      getElementInVectorFromLSB (getTypedVerticalSlice
          (setTypedHorizontalSlice za rowIdx tileIdx esize data) colIdx tileIdx esize) i
          esize.bits =
        if i = r then getElementInVectorFromLSB data c esize.bits
        else getElementInVectorFromLSB (getTypedVerticalSlice za colIdx tileIdx esize) i
          esize.bits := by
  have htile : tileIdx.toNat = ((⟨tileIdx.toNat, ht⟩ : TileIdx esize) : ℕ) := rfl
  -- a write through one orientation, seen through one slice of the other
  have hcross : ∀ (isVertical : Bool) {w w' : ℕ} (written : BitVec w) (seen : BitVec w')
      (data : BitVec m.svl) (i : SliceIdx m esize),
      lanes esize (getTypedSlice (updateSingleTypedSlice za isVertical tileIdx written esize data)
          (!isVertical) tileIdx seen esize) i =
        if i = sliceOf m esize written then lanes esize data (sliceOf m esize seen)
        else lanes esize (getTypedSlice za (!isVertical) tileIdx seen esize) i := by
    intro isVertical w w' written seen data i
    rw [lanes_getTypedSlice htile, tiles_updateSingleTypedSlice htile, line_setLine_cross,
      Function.update_apply, lanes_getTypedSlice htile]
  refine ⟨?_, ?_, ?_⟩
  · have hrow := congrFun (lanes_getTypedSlice htile za false rowIdx) (sliceOf m esize colIdx)
    have hcol := congrFun (lanes_getTypedSlice htile za true colIdx) (sliceOf m esize rowIdx)
    rw [line_transpose] at hrow
    exact hrow.trans hcol.symm
  · intro data i hi
    have h := hcross true colIdx rowIdx data ⟨i, hi⟩
    simp only [Fin.ext_iff] at h
    exact h
  · intro data i hi
    have h := hcross false rowIdx colIdx data ⟨i, hi⟩
    simp only [Fin.ext_iff] at h
    exact h

theorem slices_transpose_half :
    getElementInVectorFromLSB (getTypedHorizontalSlice (m := smeDramLE) (fun addr =>
        addr.setWidth 8) 9#32 1#1 .half) 6 16 =
      getElementInVectorFromLSB (getTypedVerticalSlice (m := smeDramLE) (fun addr =>
        addr.setWidth 8) 6#32 1#1 .half) 1 16 := by
  have h := (slices_transpose smeDramLE .half 1#1 (by decide) 9#32 6#32 fun addr =>
    addr.setWidth 8).1
  have hr : (9#32).toNat % smeDramLE.dim .half = 1 := by decide
  have hc : (6#32).toNat % smeDramLE.dim .half = 6 := by decide
  rwa [hr, hc] at h

/-! ## Tiles -/

/-- Tiles of one size share no byte and leave none out, and a tile lies inside
one tile of each smaller size. -/
theorem tiles_partition_and_nest :
    (∀ (isVertical : Bool) (addr : BitVec m.zaAddrWidth),
      ∃! s : TileIdx esize × SliceIdx m esize, InSlice esize isVertical s.1 s.2 addr) ∧
    (∀ (isVertical : Bool) (t : TileIdx esize) (k : SliceIdx m esize)
        (addr : BitVec m.zaAddrWidth),
      (InSlice esize isVertical t k addr ↔ ∃ (za : ZaMem m) (x : BitVec 8),
        getTypedSlice (Function.update za addr x) isVertical (BitVec.ofNat m.zaAddrWidth t)
            (BitVec.ofNat m.zaAddrWidth k) esize ≠
          getTypedSlice za isVertical (BitVec.ofNat m.zaAddrWidth t)
            (BitVec.ofNat m.zaAddrWidth k) esize) ∧
      (InSlice esize isVertical t k addr ↔ ∃ (za : ZaMem m) (data : BitVec m.svl),
        updateSingleTypedSlice za isVertical (BitVec.ofNat m.zaAddrWidth t)
          (BitVec.ofNat m.zaAddrWidth k) esize data addr ≠ za addr)) ∧
    (∀ (isVertical isVertical' : Bool) {a a' b b' : ℕ} (tileIdx : BitVec b) (tileIdx' : BitVec b')
        (sliceIdx : BitVec a) (sliceIdx' : BitVec a') (za : ZaMem m) (data : BitVec m.svl),
      tileIdx.toNat < esize.bytes → tileIdx'.toNat < esize.bytes →
      tileIdx'.toNat ≠ tileIdx.toNat →
      getTypedSlice (updateSingleTypedSlice za isVertical tileIdx sliceIdx esize data) isVertical'
          tileIdx' sliceIdx' esize =
        getTypedSlice za isVertical' tileIdx' sliceIdx' esize) ∧
    (∀ (t : TileIdx esize) (k : SliceIdx m esize) (za : ZaMem m),
      getTypedSlice za false (BitVec.ofNat m.zaAddrWidth t) (BitVec.ofNat m.zaAddrWidth k) esize =
        getTypedSlice za false 0#m.zaAddrWidth
          (BitVec.ofNat m.zaAddrWidth (t + k * m.numTiles esize)) .byte) ∧
    ∀ (smaller : ElementSize), smaller.bytes < esize.bytes →
      ∀ (isVertical isVertical' : Bool) (t : TileIdx esize) (addr : BitVec m.zaAddrWidth),
        (∃ k, InSlice esize isVertical t k addr) →
          ∃ k, InSlice smaller isVertical' ⟨t % smaller.bytes, Nat.mod_lt _ smaller.bytes_pos⟩
            k addr := by
  have htile := @tileIdx_toNat esize m
  refine ⟨?_, ?_, ?_, ?_, ?_⟩
  · exact existsUnique_inSlice esize
  · intro isVertical t k addr
    have hread := inSlice_iff_read (htile t) isVertical (BitVec.ofNat m.zaAddrWidth k) addr
    have hwritten := inSlice_iff_written (htile t) isVertical (BitVec.ofNat m.zaAddrWidth k) addr
    rw [sliceOf_ofNat] at hread hwritten
    exact ⟨hread, hwritten⟩
  · intro isVertical isVertical' a a' b b' tileIdx tileIdx' sliceIdx sliceIdx' za data ht ht' hne
    have hidx : tileIdx.toNat = ((⟨tileIdx.toNat, ht⟩ : TileIdx esize) : ℕ) := rfl
    have hidx' : tileIdx'.toNat = ((⟨tileIdx'.toNat, ht'⟩ : TileIdx esize) : ℕ) := rfl
    apply lanes_injective esize
    rw [lanes_getTypedSlice hidx', lanes_getTypedSlice hidx', tiles_updateSingleTypedSlice hidx,
      line_setLine_of_ne]
    exact fun h => hne (congrArg Fin.val h)
  · intro t k za
    have hrow := getTypedHorizontalSlice_eq_row (htile t) za (BitVec.ofNat m.zaAddrWidth k)
    rw [sliceOf_ofNat] at hrow
    rw [m.numTiles_eq]
    exact hrow
  · intro smaller hlt isVertical isVertical' t addr hin
    rw [exists_inSlice_iff] at hin ⊢
    rw [← Nat.mod_mod_of_dvd _ (smaller.bytes_dvd esize (Nat.le_of_lt hlt)), hin]

end Slices

end ArmSmeIla
