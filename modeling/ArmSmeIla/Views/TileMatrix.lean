import ArmSmeIla.Views.TileBytes

/-!
# ZA as a family of matrices

What ZA is for, stated over the code: at an element size with `n` tiles of
`dim × dim` elements, a ZA memory is a family of `n` square matrices. A
horizontal slice is a row of one of them and a vertical slice a column; setting
a slice is `updateRow`, respectively `updateCol`. The four slice functions of
the source are related to this view here, once, and all later facts about ZA
are facts about matrices.
-/

namespace ArmSmeIla

open Packing

variable {m : ArmSme} {esize : ElementSize}

/-- Tiles of one element size. -/
abbrev TileIdx (esize : ElementSize) : Type := Fin esize.bytes

/-- Rows, columns and slices of a tile. -/
abbrev SliceIdx (m : ArmSme) (esize : ElementSize) : Type := Fin (m.dim esize)

/-- `ZA0.B`, the only tile of bytes: all of ZA. -/
def za0B : TileIdx .byte := ⟨0, by decide⟩

theorem toNat_eq_za0B (w : ℕ) : (BitVec.ofNat w 0).toNat = za0B := Nat.zero_mod _

theorem tileIdx_toNat (m : ArmSme) (t : TileIdx esize) :
    (BitVec.ofNat m.zaAddrWidth t).toNat = t := by
  have hle : esize.bytes ≤ m.svlB := Nat.le_trans esize.bytes_le m.svlB_ge
  have hlt := t.isLt
  exact Nat.mod_eq_of_lt (lt_zaAddr (by omega))

/-- The slice an index selects: the index modulo `dim`. -/
def sliceOf (m : ArmSme) (esize : ElementSize) {a : ℕ} (sliceIdx : BitVec a) :
    SliceIdx m esize :=
  ⟨sliceIdx.toNat % m.dim esize, Nat.mod_lt _ (m.dim_pos esize)⟩

@[simp]
theorem sliceOf_ofNat (i : SliceIdx m esize) :
    sliceOf m esize (BitVec.ofNat m.zaAddrWidth i) = i := by
  have hlt : (i : ℕ) < 2 ^ m.zaAddrWidth :=
    lt_zaAddr (Nat.le_trans (Nat.le_of_lt i.isLt) (dim_le m esize))
  apply Fin.ext
  simp only [sliceOf, BitVec.toNat_ofNat, Nat.mod_eq_of_lt hlt, Nat.mod_eq_of_lt i.isLt]

/-- The elements of a vector, from the least significant one. -/
def lanes (esize : ElementSize) (v : BitVec m.svl) : SliceIdx m esize → BitVec esize.bits :=
  fun i => elem v i esize.bits

theorem lanes_injective (esize : ElementSize) : Function.Injective (lanes (m := m) esize) := by
  intro v v' h
  apply ext_elem (m.dim_mul_bits esize).symm
  intro i hi
  exact congrFun h ⟨i, hi⟩

/-- Byte `b` of lane `i` is a byte of the vector. -/
theorem elem_lanes (v : BitVec m.svl) (i : SliceIdx m esize) (b : Fin esize.bytes) :
    elem (lanes esize v i) b 8 = elem v (i * esize.bytes + b) 8 := by
  unfold lanes
  conv_lhs => rw [esize.bits_eq]
  exact elem_elem v i esize.bytes b b.isLt

/-! ## Bytes of elements -/

/-- The address of byte `b` (from the least significant end) of element
`(r, c)` of tile `t`. -/
def byteOf (t : TileIdx esize) (r c : SliceIdx m esize) (b : Fin esize.bytes) :
    BitVec m.zaAddrWidth :=
  tileByteAddr m esize t r c b

theorem byteOf_inj {t t' : TileIdx esize} {r c r' c' : SliceIdx m esize}
    {b b' : Fin esize.bytes} :
    byteOf t r c b = byteOf t' r' c' b' ↔ t = t' ∧ r = r' ∧ c = c' ∧ b = b' := by
  simp only [byteOf, Fin.ext_iff]
  exact tileByteAddr_inj t.isLt r.isLt c.isLt b.isLt t'.isLt r'.isLt c'.isLt b'.isLt

theorem exists_byteOf (esize : ElementSize) (a : BitVec m.zaAddrWidth) :
    ∃ (t : TileIdx esize) (r c : SliceIdx m esize) (b : Fin esize.bytes), a = byteOf t r c b := by
  obtain ⟨t, ht, r, hr, c, hc, b, hb, h⟩ := exists_tileByteAddr esize a
  exact ⟨⟨t, ht⟩, ⟨r, hr⟩, ⟨c, hc⟩, ⟨b, hb⟩, h⟩

/-- The matrices of a ZA memory at one element size. -/
def tiles (esize : ElementSize) (za : ZaMem m) :
    TileIdx esize → Matrix (SliceIdx m esize) (SliceIdx m esize) (BitVec esize.bits) :=
  fun t => Matrix.of fun r c =>
    getElementAtAddress za (byteAddr m (tileRow esize t r) (tileCol m esize c)) esize

/-- A pair of `k`-byte reads, the first at the lower address, is a read of
`2 * k` bytes: the doubling step of `_GetHalf … _GetQuad`. -/
theorem elem_pair {w k : ℕ} {high low : BitVec w} (hw : w = k * 8) {mem : ZaMem m}
    {addr : BitVec m.zaAddrWidth}
    (hhigh : ∀ b < k, elem high b 8 = mem (addr + BitVec.ofNat _ (k - 1 - b)))
    (hlow : ∀ b < k, elem low b 8 = mem (addr + BitVec.ofNat _ k + BitVec.ofNat _ (k - 1 - b)))
    {b : ℕ} (hb : b < 2 * k) :
    elem (high ++ low) b 8 = mem (addr + BitVec.ofNat _ (2 * k - 1 - b)) := by
  by_cases h : b < k
  · rw [elem_append_low high low hw h, hlow b h, BitVec.add_assoc, ← BitVec.ofNat_add]
    congr 3
    omega
  · obtain ⟨i, rfl⟩ := Nat.exists_eq_add_of_le (Nat.le_of_not_lt h)
    rw [elem_append_high high low hw, hhigh i (by omega)]
    congr 3
    omega

/-- An element's most significant byte is at the lowest address. -/
theorem elem_getElementAtAddress (mem : ZaMem m) (addr : BitVec m.zaAddrWidth)
    (esize : ElementSize) {b : ℕ} (hb : b < esize.bytes) :
    elem (getElementAtAddress mem addr esize) b 8 =
      mem (addr + BitVec.ofNat _ (esize.bytes - 1 - b)) := by
  have hbyte : ∀ addr, ∀ b < 1, elem (getByte mem addr) b 8 =
      mem (addr + BitVec.ofNat _ (1 - 1 - b)) := by
    intro addr b hb
    obtain rfl : b = 0 := by omega
    rw [elem_self]
    simp [getByte]
  have hhalf : ∀ addr, ∀ b < 2, elem (getHalf mem addr) b 8 =
      mem (addr + BitVec.ofNat _ (2 - 1 - b)) := fun addr _ hb =>
    elem_pair (by rfl) (hbyte addr) (hbyte _) hb
  have hword : ∀ addr, ∀ b < 4, elem (getWord mem addr) b 8 =
      mem (addr + BitVec.ofNat _ (4 - 1 - b)) := fun addr _ hb =>
    elem_pair (by rfl) (hhalf addr) (hhalf _) hb
  have hdouble : ∀ addr, ∀ b < 8, elem (getDouble mem addr) b 8 =
      mem (addr + BitVec.ofNat _ (8 - 1 - b)) := fun addr _ hb =>
    elem_pair (by rfl) (hword addr) (hword _) hb
  cases esize with
  | byte => exact hbyte addr b hb
  | half => exact hhalf addr b hb
  | word => exact hword addr b hb
  | double => exact hdouble addr b hb
  | quad => exact elem_pair (by rfl) (hdouble addr) (hdouble _) hb

theorem elem_tiles (za : ZaMem m) (t : TileIdx esize) (r c : SliceIdx m esize)
    (b : Fin esize.bytes) : elem (tiles esize za t r c) b 8 = za (byteOf t r c b) := by
  rw [tiles, Matrix.of_apply, elem_getElementAtAddress _ _ _ b.isLt, byteAddr_add]
  rfl

/-- The tiles of one size cover ZA: a ZA memory is determined by its matrices. -/
theorem tiles_injective (esize : ElementSize) : Function.Injective (tiles (m := m) esize) := by
  intro za za' h
  funext a
  obtain ⟨t, r, c, b, rfl⟩ := exists_byteOf esize a
  rw [← elem_tiles za, ← elem_tiles za', h]

/-! ## Reading a slice -/

section Slices

variable {a b : ℕ} {tileIdx : BitVec b} {t : TileIdx esize} (mem : ZaMem m)
  (sliceIdx : BitVec a)

/-- The source addresses the first row of a vertical slice by the tile index
itself: the general row formula at row 0. -/
theorem toByteMemoryAddress_tileIdx {t : TileIdx esize} (ht : tileIdx.toNat = t)
    (col : BitVec m.zaAddrWidth) :
    toByteMemoryAddress (m := m) tileIdx col =
      toByteMemoryAddress (verticalRow m tileIdx 0 esize) col := by
  rw [toByteMemoryAddress_eq, toByteMemoryAddress_eq,
    verticalRow_toNat tileIdx (ht ▸ t.isLt) (m.dim_pos esize), tileRow, Nat.zero_mul,
    Nat.add_zero]

theorem elem_getTypedHorizontalSlice (ht : tileIdx.toNat = t) (c : SliceIdx m esize)
    (i : Fin esize.bytes) :
    elem (getTypedHorizontalSlice mem sliceIdx tileIdx esize) (c * esize.bytes + i) 8 =
      mem (byteOf t (sliceOf m esize sliceIdx) c i) := by
  have hlt : c * esize.bytes + i < m.svlB := by
    rw [← m.dim_mul_bytes esize]
    exact offset_lt c.isLt i.isLt
  have hadd := tileCol_add c.isLt
  have hsplit : ((c : ℕ) + 1) * esize.bytes = c * esize.bytes + esize.bytes := by ring
  have hcol : m.svlB - 1 - (c * esize.bytes + i) =
      tileCol m esize c + (esize.bytes - 1 - i) := by
    have := i.isLt
    omega
  simp only [getTypedHorizontalSlice, elem_cast]
  rw [elem_appendAll_range (fun i => getByte mem (toByteMemoryAddress
    (horizontalRow m sliceIdx tileIdx esize) (BitVec.ofNat m.zaAddrWidth i))) hlt, getByte,
    toByteMemoryAddress_eq, horizontalRow_toNat _ _ (ht ▸ t.isLt), hcol, BitVec.toNat_ofNat,
    Nat.mod_eq_of_lt (lt_zaAddr (by omega)), ht]
  rfl

/-- A horizontal slice is a row of its tile. -/
theorem lanes_getTypedHorizontalSlice (ht : tileIdx.toNat = t) :
    lanes esize (getTypedHorizontalSlice mem sliceIdx tileIdx esize) =
      (tiles esize mem t).row (sliceOf m esize sliceIdx) := by
  funext c
  apply ext_elem esize.bits_eq
  intro i hi
  rw [elem_lanes _ c ⟨i, hi⟩, elem_getTypedHorizontalSlice mem sliceIdx ht c ⟨i, hi⟩]
  exact (elem_tiles mem t _ c ⟨i, hi⟩).symm

/-- A vertical slice is a column of its tile. -/
theorem lanes_getTypedVerticalSlice (ht : tileIdx.toNat = t) :
    lanes esize (getTypedVerticalSlice mem sliceIdx tileIdx esize) =
      (tiles esize mem t).col (sliceOf m esize sliceIdx) := by
  funext r
  simp only [lanes, getTypedVerticalSlice, elem_cast]
  rw [toByteMemoryAddress_tileIdx ht,
    elem_prependAll_range (fun i => getElementAtAddress mem (toByteMemoryAddress
    (verticalRow m tileIdx i esize) (verticalCol m sliceIdx esize)) esize) r.isLt,
    toByteMemoryAddress_eq, verticalRow_toNat tileIdx (ht ▸ t.isLt) r.isLt, verticalCol_toNat, ht]
  rfl

/-! ## Writing a slice -/

variable (data : BitVec m.svl)

theorem setTypedHorizontalSlice_byteOf (ht : tileIdx.toNat = t) (t' : TileIdx esize)
    (r c : SliceIdx m esize) (i : Fin esize.bytes) :
    setTypedHorizontalSlice mem sliceIdx tileIdx esize data (byteOf t' r c i) =
      if t' = t ∧ r = sliceOf m esize sliceIdx then elem (lanes esize data c) i 8
      else mem (byteOf t' r c i) := by
  let addr (j : ℕ) : BitVec m.zaAddrWidth := toByteMemoryAddress
    (horizontalRow m sliceIdx tileIdx esize) (BitVec.ofNat m.zaAddrWidth j)
  have haddr : ∀ j < m.svlB, addr j =
      byteAddr m (tileRow esize t (sliceOf m esize sliceIdx)) j := by
    intro j hj
    simp only [addr]
    rw [toByteMemoryAddress_eq, horizontalRow_toNat _ _ (ht ▸ t.isLt), BitVec.toNat_ofNat,
      Nat.mod_eq_of_lt (lt_zaAddr (Nat.le_of_lt hj)), ht]
    rfl
  have hrow := tileRow_lt t.isLt (sliceOf m esize sliceIdx).isLt
  show Loops.storeAll addr (fun j => elem data (m.svlB - 1 - j) 8) m.svlB mem _ = _
  by_cases h : t' = t ∧ r = sliceOf m esize sliceIdx
  · obtain ⟨rfl, rfl⟩ := h
    have hcol := tileCol_lt c.isLt (b := esize.bytes - 1 - i) (by have := i.isLt; omega)
    have hinj : ∀ j < m.svlB, ∀ k < m.svlB, addr j = addr k → j = k := by
      intro j hj k hk hjk
      rw [haddr j hj, haddr k hk, byteAddr_inj hrow hj hrow hk] at hjk
      exact hjk.2
    have hadd := tileCol_add c.isLt
    have hsplit : ((c : ℕ) + 1) * esize.bytes = c * esize.bytes + esize.bytes := by ring
    have hidx : m.svlB - 1 - (tileCol m esize c + (esize.bytes - 1 - i)) =
        c * esize.bytes + i := by
      have := i.isLt
      omega
    rw [if_pos ⟨rfl, rfl⟩, elem_lanes, ← hidx]
    have hit := Loops.storeAll_hit (fun j => elem data (m.svlB - 1 - j) 8) hinj hcol mem
    rwa [haddr _ hcol] at hit
  · rw [if_neg h]
    apply Loops.storeAll_miss
    intro j hj heq
    rw [haddr j hj, byteOf, tileByteAddr, byteAddr_inj (tileRow_lt t'.isLt r.isLt)
      (tileCol_lt c.isLt (by have := i.isLt; omega)) hrow hj] at heq
    obtain ⟨ht', hr⟩ := tileRow_inj t'.isLt t.isLt heq.1
    exact h ⟨Fin.ext ht', Fin.ext hr⟩

/-- Storing one element changes the bytes of that element only. -/
theorem setElementAtAddress_byteOf (t t' : TileIdx esize) (r c r' c' : SliceIdx m esize)
    (x : BitVec esize.bits) (i : Fin esize.bytes) :
    setElementAtAddress mem (byteAddr m (tileRow esize t r) (tileCol m esize c)) esize x
        (byteOf t' r' c' i) =
      if t' = t ∧ r' = r ∧ c' = c then elem x i 8 else mem (byteOf t' r' c' i) := by
  let addr (j : ℕ) : BitVec m.zaAddrWidth :=
    byteAddr m (tileRow esize t r) (tileCol m esize c) + BitVec.ofNat _ j
  -- the `j`-th store goes to byte `bytes - 1 - j` of the element
  have haddr : ∀ j < esize.bytes, ∀ h, addr j = byteOf t r c ⟨esize.bytes - 1 - j, h⟩ := by
    intro j hj h
    simp only [addr, byteAddr_add, byteOf, tileByteAddr]
    congr 2
    omega
  show Loops.storeAll addr (fun j => elem x (esize.bytes - 1 - j) 8) esize.bytes mem _ = _
  by_cases h : t' = t ∧ r' = r ∧ c' = c
  · obtain ⟨rfl, rfl, rfl⟩ := h
    have hinj : ∀ j < esize.bytes, ∀ k < esize.bytes, addr j = addr k → j = k := by
      intro j hj k hk hjk
      rw [haddr j hj (by omega), haddr k hk (by omega), byteOf_inj] at hjk
      have := congrArg Fin.val hjk.2.2.2
      simp only at this
      omega
    have hlt : esize.bytes - 1 - i < esize.bytes := by have := i.isLt; omega
    have hback : esize.bytes - 1 - (esize.bytes - 1 - i) = i := by have := i.isLt; omega
    have hit := Loops.storeAll_hit (fun j => elem x (esize.bytes - 1 - j) 8) hinj hlt mem
    rw [haddr _ hlt (by omega)] at hit
    simpa only [hback, if_pos, and_self] using hit
  · rw [if_neg h]
    apply Loops.storeAll_miss
    intro j hj heq
    rw [haddr j hj (by omega), byteOf_inj] at heq
    exact h ⟨heq.1, heq.2.1, heq.2.2.1⟩

/-- The loop over all rows: the source unrolls the first one. -/
theorem setTypedVerticalSlice_eq_foldl (ht : tileIdx.toNat = t) :
    setTypedVerticalSlice mem sliceIdx tileIdx esize data =
      (List.range (m.dim esize)).foldl (fun newMem j => setElementAtAddress newMem
        (toByteMemoryAddress (verticalRow m tileIdx j esize) (verticalCol m sliceIdx esize)) esize
        (elem data j esize.bits)) mem := by
  rw [← Loops.foldl_first_unrolled (m.dim_pos esize)]
  simp only [setTypedVerticalSlice, toByteMemoryAddress_tileIdx ht]
  rfl

theorem setTypedVerticalSlice_byteOf (ht : tileIdx.toNat = t) (t' : TileIdx esize)
    (r c : SliceIdx m esize) (i : Fin esize.bytes) :
    setTypedVerticalSlice mem sliceIdx tileIdx esize data (byteOf t' r c i) =
      if t' = t ∧ c = sliceOf m esize sliceIdx then elem (lanes esize data r) i 8
      else mem (byteOf t' r c i) := by
  have hstore : ∀ j : SliceIdx m esize, ∀ newMem, setElementAtAddress newMem
      (toByteMemoryAddress (verticalRow m tileIdx j esize) (verticalCol m sliceIdx esize)) esize
        (elem data j esize.bits) (byteOf t' r c i) =
      if t' = t ∧ r = j ∧ c = sliceOf m esize sliceIdx then elem (lanes esize data j) i 8
      else newMem (byteOf t' r c i) := by
    intro j newMem
    rw [toByteMemoryAddress_eq, verticalRow_toNat tileIdx (ht ▸ t.isLt) j.isLt,
      verticalCol_toNat, ht]
    exact setElementAtAddress_byteOf newMem t t' j (sliceOf m esize sliceIdx) r c _ i
  rw [setTypedVerticalSlice_eq_foldl mem sliceIdx data ht]
  by_cases h : t' = t ∧ c = sliceOf m esize sliceIdx
  · rw [if_pos h]
    refine Loops.foldl_once (fun mem : ZaMem m => mem (byteOf t' r c i))
      (fun _ => elem (lanes esize data r) i 8) List.nodup_range (List.mem_range.mpr r.isLt)
      ?_ ?_ mem
    · intro newMem
      rw [hstore r, if_pos ⟨h.1, rfl, h.2⟩]
    · intro j hj hne newMem
      rw [hstore ⟨j, List.mem_range.mp hj⟩, if_neg]
      exact fun h' => hne (congrArg Fin.val h'.2.1).symm
  · rw [if_neg h]
    refine Loops.foldl_frame (fun mem : ZaMem m => mem (byteOf t' r c i)) ?_ mem
    intro j hj newMem
    rw [hstore ⟨j, List.mem_range.mp hj⟩, if_neg]
    exact fun h' => h ⟨h'.1, h'.2.2⟩

/-- When a store reaches some entries of one tile only, byte by byte, it updates
that matrix. -/
theorem tiles_eq_update {newMem : ZaMem m} {hits : SliceIdx m esize → SliceIdx m esize → Prop}
    [∀ r c, Decidable (hits r c)] {x A : Matrix (SliceIdx m esize) (SliceIdx m esize)
      (BitVec esize.bits)}
    (hbyte : ∀ t' r c (i : Fin esize.bytes), newMem (byteOf t' r c i) =
      if t' = t ∧ hits r c then elem (x r c) i 8 else mem (byteOf t' r c i))
    (hA : ∀ r c, A r c = if hits r c then x r c else tiles esize mem t r c) :
    tiles esize newMem = Function.update (tiles esize mem) t A := by
  funext t'
  apply Matrix.ext
  intro r c
  apply ext_elem esize.bits_eq
  intro i hi
  rw [elem_tiles _ t' r c ⟨i, hi⟩, hbyte]
  by_cases htt : t' = t
  · subst htt
    rw [Function.update_self, hA]
    by_cases hit : hits r c
    · rw [if_pos ⟨rfl, hit⟩, if_pos hit]
    · rw [if_neg (fun h => hit h.2), if_neg hit, elem_tiles mem t' r c ⟨i, hi⟩]
  · rw [if_neg (fun h => htt h.1), Function.update_of_ne htt, elem_tiles mem t' r c ⟨i, hi⟩]

/-- Setting a horizontal slice replaces a row of its tile. -/
theorem tiles_setTypedHorizontalSlice (ht : tileIdx.toNat = t) :
    tiles esize (setTypedHorizontalSlice mem sliceIdx tileIdx esize data) =
      Function.update (tiles esize mem) t
        ((tiles esize mem t).updateRow (sliceOf m esize sliceIdx) (lanes esize data)) := by
  refine tiles_eq_update mem (x := fun _ c => lanes esize data c)
    (setTypedHorizontalSlice_byteOf mem sliceIdx data ht) ?_
  intro r c
  exact Matrix.updateRow_apply

/-- Setting a vertical slice replaces a column of its tile. -/
theorem tiles_setTypedVerticalSlice (ht : tileIdx.toNat = t) :
    tiles esize (setTypedVerticalSlice mem sliceIdx tileIdx esize data) =
      Function.update (tiles esize mem) t
        ((tiles esize mem t).updateCol (sliceOf m esize sliceIdx) (lanes esize data)) := by
  refine tiles_eq_update mem (x := fun r _ => lanes esize data r)
    (setTypedVerticalSlice_byteOf mem sliceIdx data ht) ?_
  intro r c
  exact Matrix.updateCol_apply

end Slices

end ArmSmeIla
