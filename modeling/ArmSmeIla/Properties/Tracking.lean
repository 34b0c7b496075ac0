import ArmSmeIla.Model.Tracker
import ArmSmeIla.Views.TypedSlices

/-!
# The tracker follows the model

Every assignment to the tracker has a counterpart among the byte stores of the
slice setters, at the same place in the same loops. So the two stay in step,
and the constraints describe the ZA that the setters build.
-/

namespace ArmSmeIla

open Packing

variable {m : ArmSme}

/-! ## Calls -/

/-- A tracked slice; the tile is one that the element size has. -/
structure SliceCall (m : ArmSme) where
  valueExpr : BitVec m.svl
  tileIdx : BitVec 32
  sliceIdx : BitVec 32
  isVertical : Bool
  esize : ElementSize
  inRange : tileIdx.toNat < esize.bytes

namespace SliceCall

def track (tracker : Tracker) (call : SliceCall m) : Tracker :=
  trackSlice tracker call.valueExpr call.tileIdx call.sliceIdx call.isVertical call.esize

/-- The model's setter with the same arguments. -/
def set (za : ZaMem m) (call : SliceCall m) : ZaMem m :=
  let tileIdx := BitVec.ofNat m.zaAddrWidth (intToNumeric call.tileIdx).toNat
  let sliceIdx := BitVec.ofNat m.zaAddrWidth (intToNumeric call.sliceIdx).toNat
  if call.isVertical then setTypedVerticalSlice za sliceIdx tileIdx call.esize call.valueExpr
  else setTypedHorizontalSlice za sliceIdx tileIdx call.esize call.valueExpr

/-- The getter of the tests with the same arguments. -/
def get (za : ZaMem m) (call : SliceCall m) : BitVec m.svl :=
  if call.isVertical then getVerticalSlice za call.tileIdx call.sliceIdx call.esize
  else getHorizontalSlice za call.tileIdx call.sliceIdx call.esize

/-- Both orientations at once. -/
theorem set_eq (za : ZaMem m) (call : SliceCall m) :
    call.set za = updateSingleTypedSlice za call.isVertical
      (BitVec.ofNat m.zaAddrWidth (intToNumeric call.tileIdx).toNat)
      (BitVec.ofNat m.zaAddrWidth (intToNumeric call.sliceIdx).toNat) call.esize
      call.valueExpr := rfl

theorem get_eq (za : ZaMem m) (call : SliceCall m) :
    call.get za = getTypedSlice za call.isVertical
      (BitVec.ofNat m.zaAddrWidth (intToNumeric call.tileIdx).toNat)
      (BitVec.ofNat m.zaAddrWidth (intToNumeric call.sliceIdx).toNat) call.esize := by
  unfold get
  cases call.isVertical <;> rfl

end SliceCall

/-- A ZA meets all constraints. -/
def Satisfies (za : ZaMem m) (constraints : List (BitVec m.zaAddrWidth × BitVec 8)) : Prop :=
  ∀ c ∈ constraints, za c.1 = c.2

/-! ## Indices -/

theorem intToNumeric_toNat {n : BitVec 32} (h : n.toNat < 2 ^ 31) :
    (intToNumeric n).toNat = n.toNat := by
  have hmsb : n.msb = false := BitVec.msb_eq_false_iff_two_mul_lt.mpr (by omega)
  rw [intToNumeric, BitVec.signExtend_eq_setWidth_of_msb_false hmsb, BitVec.toNat_setWidth]
  exact Nat.mod_eq_of_lt (by omega)

theorem tileIdx_ofNat_toNat (call : SliceCall m) :
    (intToNumeric call.tileIdx).toNat = call.tileIdx.toNat ∧
      (BitVec.ofNat m.zaAddrWidth (intToNumeric call.tileIdx).toNat).toNat =
        call.tileIdx.toNat := by
  have hle := call.esize.bytes_le
  have hlt := call.inRange
  have hint := intToNumeric_toNat (n := call.tileIdx) (by omega)
  refine ⟨hint, ?_⟩
  rw [hint]
  exact tileIdx_toNat m (⟨call.tileIdx.toNat, hlt⟩ : TileIdx call.esize)

/-- The address width keeps an index modulo `dim`. -/
theorem ofNat_toNat_mod_dim (n : ℕ) (esize : ElementSize) :
    (BitVec.ofNat m.zaAddrWidth n).toNat % m.dim esize = n % m.dim esize := by
  rw [BitVec.toNat_ofNat, m.two_pow_zaAddrWidth]
  exact Nat.mod_mod_of_dvd n (Dvd.dvd.mul_right (dim_dvd_svlB m esize) _)

/-- The bit mask is the modulo. -/
theorem trackedSliceIdx_eq (sliceIdx : BitVec 32) (esize : ElementSize) :
    trackedSliceIdx m sliceIdx esize = (intToNumeric sliceIdx).toNat % m.dim esize := by
  have hlt : m.dim esize - 1 < 2 ^ 64 := by
    have := dim_le m esize
    have := m.svlB_lt
    omega
  rcases m.dim_eq_pow esize with ⟨j, hdim, _⟩
  unfold trackedSliceIdx
  split
  · next h => rw [h, Nat.mod_one]
  · rw [BitVec.toNat_and, BitVec.toNat_ofNat, Nat.mod_eq_of_lt hlt, hdim,
      Nat.and_two_pow_sub_one_eq_mod]

/-- The tile and the slice that a call names. -/
def SliceCall.tile (call : SliceCall m) : TileIdx call.esize :=
  ⟨call.tileIdx.toNat, call.inRange⟩

def SliceCall.slice (call : SliceCall m) : SliceIdx m call.esize :=
  sliceOf m call.esize (BitVec.ofNat m.zaAddrWidth (intToNumeric call.sliceIdx).toNat)

theorem SliceCall.slice_val (call : SliceCall m) :
    (call.slice : ℕ) = trackedSliceIdx m call.sliceIdx call.esize := by
  rw [trackedSliceIdx_eq]
  exact ofNat_toNat_mod_dim _ call.esize

theorem SliceCall.tile_toNat (call : SliceCall m) :
    (BitVec.ofNat m.zaAddrWidth (intToNumeric call.tileIdx).toNat).toNat = call.tile :=
  (tileIdx_ofNat_toNat call).2

/-- The two byte counts from the MSB are one. -/
theorem getVecByteMSB_eq (valueExpr : BitVec m.svl) (idx : ℕ) :
    getVecByteMSB valueExpr idx = elem valueExpr (m.svlB - 1 - idx) 8 := by
  rw [getVecByteMSB, getVecByteLSB, elem, Nat.mul_comm]

/-! ## In step -/

/-- The tracker holds the bytes of `za`, where untracked bytes are zero. -/
def Tracks (tracker : Tracker) (za : ZaMem m) : Prop :=
  ∀ addr < m.zaByteSize, za (BitVec.ofNat m.zaAddrWidth addr) = (tracker addr).getD 0

theorem Tracks.insertOrAssign {tracker : Tracker} {za : ZaMem m} (h : Tracks tracker za)
    {addr : ℕ} (haddr : addr < m.zaByteSize) (value : BitVec 8) :
    Tracks (tracker.insertOrAssign addr value)
      (Function.update za (BitVec.ofNat m.zaAddrWidth addr) value) := by
  intro addr' haddr'
  unfold Tracker.insertOrAssign
  by_cases heq : addr' = addr
  · subst heq
    rw [Function.update_self, Function.update_self]
    rfl
  · have hne : BitVec.ofNat m.zaAddrWidth addr' ≠ BitVec.ofNat m.zaAddrWidth addr :=
      fun hof => heq (ofNat_zaAddr_inj haddr' haddr hof)
    rw [Function.update_of_ne hne, Function.update_of_ne heq]
    exact h addr' haddr'

theorem byteAddr_lt {row col : ℕ} (hrow : row < m.svlB) (hcol : col < m.svlB) :
    row * m.svlB + col < m.zaByteSize :=
  offset_lt hrow hcol

section Setters

variable {esize : ElementSize} {a b : ℕ} {tileIdx : BitVec b} {t : TileIdx esize}
  {tracker : Tracker} {za : ZaMem m} (h : Tracks tracker za) (ht : tileIdx.toNat = t)
  (sliceIdx : BitVec a) (data : BitVec m.svl)

include h ht

/-- Byte for byte along the row. -/
theorem Tracks.setTypedHorizontalSlice :
    Tracks ((List.range m.svlB).foldl (fun tracker col => tracker.insertOrAssign
        ((t + sliceOf m esize sliceIdx * esize.bytes) * m.svlB + col) (getVecByteMSB data col))
        tracker)
      (setTypedHorizontalSlice za sliceIdx tileIdx esize data) := by
  have hrow := tileRow_lt t.isLt (sliceOf m esize sliceIdx).isLt
  refine List.foldl_rel h ?_
  intro col hcol tracker za h
  have hlt := List.mem_range.mp hcol
  rw [toByteMemoryAddress_eq, horizontalRow_toNat _ _ (ht ▸ t.isLt), ht, BitVec.toNat_ofNat,
    Nat.mod_eq_of_lt (lt_zaAddr hlt.le), getVecByteMSB_eq]
  exact h.insertOrAssign (byteAddr_lt hrow hlt) _

/-- Element by element down the column, and within an element from its most
significant byte; the tracker counts all bytes from the most significant end. -/
theorem Tracks.setTypedVerticalSlice :
    Tracks ((List.range (m.dim esize)).foldl (fun tracker i =>
        (List.range esize.bytes).foldl (fun tracker b => tracker.insertOrAssign
          ((t + i * esize.bytes) * m.svlB + tileCol m esize (sliceOf m esize sliceIdx) + b)
          (getVecByteMSB data ((m.dim esize - 1 - i) * esize.bytes + b))) tracker) tracker)
      (setTypedVerticalSlice za sliceIdx tileIdx esize data) := by
  rw [setTypedVerticalSlice_eq_foldl za sliceIdx data ht]
  refine List.foldl_rel h ?_
  intro i hi tracker za h
  have hi := List.mem_range.mp hi
  refine List.foldl_rel h ?_
  intro b hb tracker za h
  have hb : b < esize.bytes := List.mem_range.mp hb
  have hcol := tileCol_lt (sliceOf m esize sliceIdx).isLt hb
  have hvalue : getVecByteMSB data ((m.dim esize - 1 - i) * esize.bytes + b) =
      elem (elem data i esize.bits) (esize.bytes - 1 - b) 8 := by
    have hmirror := offset_mirror (n := m.dim esize) (i := m.dim esize - 1 - i) (by omega) hb
    rw [m.dim_mul_bytes, show m.dim esize - 1 - (m.dim esize - 1 - i) = i by omega] at hmirror
    have hlane := elem_lanes data (⟨i, hi⟩ : SliceIdx m esize) ⟨esize.bytes - 1 - b, by omega⟩
    rw [getVecByteMSB_eq, hmirror]
    exact hlane.symm
  rw [toByteMemoryAddress_eq, verticalRow_toNat tileIdx (ht ▸ t.isLt) hi, verticalCol_toNat, ht,
    byteAddr_add, hvalue, Nat.add_assoc]
  exact h.insertOrAssign (byteAddr_lt (tileRow_lt t.isLt hi) hcol) _

end Setters

/-- A call of `track_slice` and the setter with its arguments. -/
theorem Tracks.call {tracker : Tracker} {za : ZaMem m} (h : Tracks tracker za)
    (call : SliceCall m) : Tracks (call.track tracker) (call.set za) := by
  have ht := call.tile_toNat
  have hslice := call.slice_val
  have hint := (tileIdx_ofNat_toNat call).1
  unfold SliceCall.slice at hslice
  unfold SliceCall.track SliceCall.set trackSlice
  cases hhv : call.isVertical with
  | false =>
      have hrow := h.setTypedHorizontalSlice ht
        (BitVec.ofNat m.zaAddrWidth (intToNumeric call.sliceIdx).toNat) call.valueExpr
      rw [hslice] at hrow
      simp only [Bool.false_eq_true, if_false, hint, m.numTiles_eq]
      rw [hint] at hrow
      exact hrow
  | true =>
      have hcol := h.setTypedVerticalSlice ht
        (BitVec.ofNat m.zaAddrWidth (intToNumeric call.sliceIdx).toNat) call.valueExpr
      rw [hslice] at hcol
      simp only [if_true, hint, m.numTiles_eq]
      rw [hint] at hcol
      exact hcol

/-! ## The constraints -/

theorem cstrAllTrackedAndZero_eq (tracker : Tracker) :
    cstrAllTrackedAndZero m tracker = (List.range m.zaByteSize).map fun addr =>
      (BitVec.ofNat m.zaAddrWidth addr, (tracker addr).getD 0) := by
  unfold cstrAllTrackedAndZero
  refine List.map_congr_left ?_
  intro addr _
  cases tracker addr with
  | none => rfl
  | some val => rfl

/-- The constraints of a tracker that is in step with a ZA describe that ZA. -/
theorem satisfies_iff_of_tracks {tracker : Tracker} {za : ZaMem m} (h : Tracks tracker za)
    (za' : ZaMem m) : Satisfies za' (cstrAllTrackedAndZero m tracker) ↔ za' = za := by
  rw [cstrAllTrackedAndZero_eq]
  constructor
  · intro hsat
    funext a
    have hlt := zaAddr_toNat_lt a
    have hbyte := hsat _ (List.mem_map_of_mem (List.mem_range.mpr hlt))
    rw [← h a.toNat hlt, BitVec.ofNat_toNat, BitVec.setWidth_eq] at hbyte
    exact hbyte
  · rintro rfl c hc
    rcases List.mem_map.mp hc with ⟨addr, haddr, rfl⟩
    exact h addr (List.mem_range.mp haddr)

/-- Reading back what was just set. -/
theorem SliceCall.get_set (call : SliceCall m) (za : ZaMem m) :
    call.get (call.set za) = call.valueExpr := by
  rw [call.get_eq, call.set_eq]
  exact getTypedSlice_updateSingleTypedSlice call.tile_toNat za call.isVertical _ call.valueExpr

/-- For every sequence of tracked slices the constraints have one solution: the
slices set in the same order on an all-zero ZA. The last one reads back. -/
theorem tracker_exact (m : ArmSme) (calls : List (SliceCall m)) :
    (∀ za : ZaMem m,
      Satisfies za (cstrAllTrackedAndZero m (calls.foldl SliceCall.track fun _ => none)) ↔
        za = calls.foldl SliceCall.set fun _ => 0) ∧
    ∀ (call : SliceCall m) (za : ZaMem m),
      Satisfies za (cstrAllTrackedAndZero m
        ((calls ++ [call]).foldl SliceCall.track fun _ => none)) →
      call.get za = call.valueExpr := by
  have hstep : ∀ calls : List (SliceCall m),
      Tracks (calls.foldl SliceCall.track fun _ => none)
        (calls.foldl SliceCall.set fun _ => 0 : ZaMem m) := by
    intro calls
    refine List.foldl_rel (fun _ _ => rfl) ?_
    intro call _ tracker za h
    exact h.call call
  constructor
  · exact satisfies_iff_of_tracks (hstep calls)
  · intro call za hsat
    rw [satisfies_iff_of_tracks (hstep (calls ++ [call])) za, List.foldl_append] at hsat
    rw [hsat]
    exact call.get_set _

/-- A row of bytes, and over it the last halfword column of `ZA1.H`. -/
theorem tracker_exact_overlap :
    let value : BitVec 128 := 0xAAAABBBBCCCCDDDD1111222244445555
    let row : SliceCall smeDramLE :=
      ⟨0x000102030405060708090A0B0C0D0E0F, 0, 3, false, .byte, by decide⟩
    let col : SliceCall smeDramLE := ⟨value, 1, -1, true, .half, by decide⟩
    getVerticalSlice (col.set (row.set fun _ => 0)) 1 (-1) .half = value := by
  intro value row col
  have hsat := ((tracker_exact smeDramLE [row, col]).1 (col.set (row.set fun _ => 0))).mpr rfl
  exact (tracker_exact smeDramLE [row]).2 col _ hsat

end ArmSmeIla
