import ArmSmeIla.Model.Tiles

/-!
# The bytes of a tile element

ZA is a square of bytes; at an element size every byte is one byte `b` of one
element (row `r`, column `c`) of one tile `t`. Tile rows are interleaved and
columns count from the right, so the coordinates `(t, r, c, b)` are not the
square's own. This file computes the source's address formulas, all in
`ZA_ADDR_WIDTH`-bit arithmetic, in these coordinates, and shows that they name
every byte exactly once.
-/

namespace ArmSmeIla

open Packing

variable {m : ArmSme}

/-! ## Addresses as numbers -/

theorem zaAddr_toNat_lt (a : BitVec m.zaAddrWidth) : a.toNat < m.zaByteSize :=
  Nat.lt_of_lt_of_eq a.isLt m.two_pow_zaAddrWidth

theorem ofNat_zaAddr_inj {i j : ℕ} (hi : i < m.zaByteSize) (hj : j < m.zaByteSize)
    (h : BitVec.ofNat m.zaAddrWidth i = BitVec.ofNat m.zaAddrWidth j) : i = j := by
  have hsize : m.zaByteSize = 2 ^ m.zaAddrWidth := m.two_pow_zaAddrWidth.symm
  have hn := congrArg BitVec.toNat h
  rw [hsize] at hi hj
  rwa [BitVec.toNat_ofNat, BitVec.toNat_ofNat, Nat.mod_eq_of_lt hi, Nat.mod_eq_of_lt hj] at hn

/-! ## The square of bytes -/

/-- The address of the byte at `row` and `col` of the square. -/
def byteAddr (m : ArmSme) (row col : ℕ) : BitVec m.zaAddrWidth :=
  BitVec.ofNat m.zaAddrWidth (row * m.svlB + col)

theorem byteAddr_toNat {row col : ℕ} (hr : row < m.svlB) (hc : col < m.svlB) :
    (byteAddr m row col).toNat = row * m.svlB + col := by
  rw [byteAddr, BitVec.toNat_ofNat, m.two_pow_zaAddrWidth]
  exact Nat.mod_eq_of_lt (offset_lt hr hc)

theorem byteAddr_inj {r c r' c' : ℕ} (hr : r < m.svlB) (hc : c < m.svlB)
    (hr' : r' < m.svlB) (hc' : c' < m.svlB) :
    byteAddr m r c = byteAddr m r' c' ↔ r = r' ∧ c = c' := by
  constructor
  · intro h
    have hn := congrArg BitVec.toNat h
    rw [byteAddr_toNat hr hc, byteAddr_toNat hr' hc'] at hn
    exact offset_inj hc hc' hn
  · rintro ⟨rfl, rfl⟩
    rfl

theorem exists_byteAddr (a : BitVec m.zaAddrWidth) :
    ∃ r < m.svlB, ∃ c < m.svlB, a = byteAddr m r c := by
  refine ⟨a.toNat / m.svlB, Nat.div_lt_of_lt_mul (zaAddr_toNat_lt a), a.toNat % m.svlB,
    Nat.mod_lt _ m.svlB_pos, ?_⟩
  apply BitVec.eq_of_toNat_eq
  rw [byteAddr, Nat.div_add_mod', BitVec.toNat_ofNat, Nat.mod_eq_of_lt a.isLt]

theorem byteAddr_add (row col i : ℕ) :
    byteAddr m row col + BitVec.ofNat _ i = byteAddr m row (col + i) := by
  rw [byteAddr, byteAddr, ← BitVec.ofNat_add, Nat.add_assoc]

/-! ## The source's address arithmetic -/

theorem toByteMemoryAddress_eq {a b : ℕ} (row : BitVec a) (col : BitVec b) :
    toByteMemoryAddress row col = byteAddr m row.toNat col.toNat := by
  apply BitVec.eq_of_toNat_eq
  simp [toByteMemoryAddress, byteAddr, BitVec.toNat_add, BitVec.toNat_mul, Nat.mul_mod,
    Nat.add_mod]

theorem lt_zaAddr {x : ℕ} (h : x ≤ m.svlB) : x < 2 ^ m.zaAddrWidth := by
  have hge := m.svlB_ge
  calc x ≤ m.svlB := h
    _ < m.svlB * m.svlB := by nlinarith
    _ = 2 ^ m.zaAddrWidth := m.two_pow_zaAddrWidth.symm

theorem dim_le (m : ArmSme) (esize : ElementSize) : m.dim esize ≤ m.svlB := by
  rw [← m.dim_mul_bytes esize]
  exact Nat.le_mul_of_pos_right _ esize.bytes_pos

theorem dim_dvd_svlB (m : ArmSme) (esize : ElementSize) : m.dim esize ∣ m.svlB :=
  ⟨esize.bytes, (m.dim_mul_bytes esize).symm⟩

/-- `slice_idx % dim`, the edge case `dim == 1` included. -/
theorem wrappedSliceIdx_toNat {a : ℕ} (sliceIdx : BitVec a) (esize : ElementSize) :
    (wrappedSliceIdx m sliceIdx esize).toNat = sliceIdx.toNat % m.dim esize := by
  have hlt : sliceIdx.toNat % m.dim esize < 2 ^ m.zaAddrWidth := by
    have := Nat.mod_lt sliceIdx.toNat (m.dim_pos esize)
    exact lt_zaAddr (by have := dim_le m esize; omega)
  unfold wrappedSliceIdx
  split
  · next h => simp [h, Nat.mod_one]
  · rw [BitVec.toNat_setWidth, BitVec.extractLsb'_toNat, Nat.shiftRight_zero,
      m.two_pow_log2_dim, Nat.mod_eq_of_lt hlt]

/-- Row `r` of tile `t`, as a row of the square. -/
def tileRow (esize : ElementSize) (t r : ℕ) : ℕ := t + r * esize.bytes

/-- The leftmost byte column of element column `c`. -/
def tileCol (m : ArmSme) (esize : ElementSize) (c : ℕ) : ℕ :=
  m.svlB - esize.bytes - c * esize.bytes

theorem tileRow_lt {esize : ElementSize} {t r : ℕ} (ht : t < esize.bytes)
    (hr : r < m.dim esize) : tileRow esize t r < m.svlB := by
  rw [tileRow, ← m.dim_mul_bytes esize, Nat.add_comm]
  exact offset_lt hr ht

/-- The subtraction in the column formula never borrows. -/
theorem tileCol_add {esize : ElementSize} {c : ℕ} (hc : c < m.dim esize) :
    tileCol m esize c + (c + 1) * esize.bytes = m.svlB := by
  have hle : (c + 1) * esize.bytes ≤ m.svlB := by
    rw [← m.dim_mul_bytes esize]
    exact Nat.mul_le_mul_right _ hc
  have hsplit : (c + 1) * esize.bytes = c * esize.bytes + esize.bytes := by ring
  rw [tileCol]
  omega

theorem tileCol_lt {esize : ElementSize} {c b : ℕ} (hc : c < m.dim esize)
    (hb : b < esize.bytes) : tileCol m esize c + b < m.svlB := by
  have h := tileCol_add hc
  have hsplit : (c + 1) * esize.bytes = c * esize.bytes + esize.bytes := by ring
  omega

theorem horizontalRow_toNat {a b : ℕ} (rowIdx : BitVec a) (tileIdx : BitVec b)
    {esize : ElementSize} (ht : tileIdx.toNat < esize.bytes) :
    (horizontalRow m rowIdx tileIdx esize).toNat =
      tileRow esize tileIdx.toNat (rowIdx.toNat % m.dim esize) := by
  have hrow := tileRow_lt ht (Nat.mod_lt rowIdx.toNat (m.dim_pos esize))
  have hlt := lt_zaAddr (Nat.le_of_lt hrow)
  unfold tileRow at hlt ⊢
  simp only [horizontalRow, BitVec.toNat_add, BitVec.toNat_mul, BitVec.toNat_setWidth,
    wrappedSliceIdx_toNat, m.numTiles_eq, BitVec.toNat_ofNat, Nat.mul_mod_mod, Nat.add_mod_mod,
    Nat.mod_add_mod]
  exact Nat.mod_eq_of_lt hlt

theorem verticalRow_toNat {b : ℕ} (tileIdx : BitVec b) {i : ℕ} {esize : ElementSize}
    (ht : tileIdx.toNat < esize.bytes) (hi : i < m.dim esize) :
    (verticalRow m tileIdx i esize).toNat = tileRow esize tileIdx.toNat i := by
  have hlt := lt_zaAddr (Nat.le_of_lt (tileRow_lt ht hi))
  unfold tileRow at hlt ⊢
  simp only [verticalRow, BitVec.toNat_add, BitVec.toNat_setWidth, m.numTiles_eq,
    BitVec.toNat_ofNat, Nat.add_mod_mod, Nat.mod_add_mod]
  exact Nat.mod_eq_of_lt hlt

theorem verticalCol_toNat {a : ℕ} (colIdx : BitVec a) (esize : ElementSize) :
    (verticalCol m colIdx esize).toNat = tileCol m esize (colIdx.toNat % m.dim esize) := by
  have hc := Nat.mod_lt colIdx.toNat (m.dim_pos esize)
  generalize hk : colIdx.toNat % m.dim esize = k at hc
  have hadd := tileCol_add hc
  have hsplit : (k + 1) * esize.bytes = k * esize.bytes + esize.bytes := by ring
  have hw : (wrappedSliceIdx m colIdx esize).toNat = k := by rw [wrappedSliceIdx_toNat, hk]
  have hmul : (wrappedSliceIdx m colIdx esize * BitVec.ofNat m.zaAddrWidth esize.bytes).toNat =
      k * esize.bytes := by
    rw [BitVec.toNat_mul, hw, BitVec.toNat_ofNat, Nat.mul_mod_mod]
    exact Nat.mod_eq_of_lt (lt_zaAddr (by omega))
  have hsize : (BitVec.ofNat m.zaAddrWidth esize.bytes).toNat = esize.bytes :=
    Nat.mod_eq_of_lt (lt_zaAddr (by omega))
  have hsvl : (BitVec.ofNat m.zaAddrWidth m.svlB).toNat = m.svlB :=
    Nat.mod_eq_of_lt (lt_zaAddr le_rfl)
  have hfirst : (BitVec.ofNat m.zaAddrWidth m.svlB -
      BitVec.ofNat m.zaAddrWidth esize.bytes).toNat = m.svlB - esize.bytes := by
    rw [BitVec.toNat_sub_of_le (by rw [BitVec.le_def]; omega), hsvl, hsize]
  show (BitVec.ofNat m.zaAddrWidth m.svlB - BitVec.ofNat m.zaAddrWidth esize.bytes -
    wrappedSliceIdx m colIdx esize * BitVec.ofNat m.zaAddrWidth esize.bytes).toNat = _
  rw [BitVec.toNat_sub_of_le (by rw [BitVec.le_def]; omega), hfirst, hmul, tileCol]

/-! ## Tile coordinates -/

/-- The address of byte `b` (from the least significant end) of the element at
row `r` and column `c` of tile `t`. -/
def tileByteAddr (m : ArmSme) (esize : ElementSize) (t r c b : ℕ) : BitVec m.zaAddrWidth :=
  byteAddr m (tileRow esize t r) (tileCol m esize c + (esize.bytes - 1 - b))

theorem tileRow_inj {esize : ElementSize} {t r t' r' : ℕ} (ht : t < esize.bytes)
    (ht' : t' < esize.bytes) (h : tileRow esize t r = tileRow esize t' r') : t = t' ∧ r = r' := by
  have h' : r * esize.bytes + t = r' * esize.bytes + t' := by
    unfold tileRow at h
    omega
  exact (offset_inj ht ht' h').symm

/-- Tile coordinates are unambiguous. -/
theorem tileByteAddr_inj {esize : ElementSize} {t r c b t' r' c' b' : ℕ}
    (ht : t < esize.bytes) (hr : r < m.dim esize) (hc : c < m.dim esize) (hb : b < esize.bytes)
    (ht' : t' < esize.bytes) (hr' : r' < m.dim esize) (hc' : c' < m.dim esize)
    (hb' : b' < esize.bytes) :
    tileByteAddr m esize t r c b = tileByteAddr m esize t' r' c' b' ↔
      t = t' ∧ r = r' ∧ c = c' ∧ b = b' := by
  constructor
  · intro h
    rw [tileByteAddr, tileByteAddr, byteAddr_inj (tileRow_lt ht hr) (tileCol_lt hc (by omega))
      (tileRow_lt ht' hr') (tileCol_lt hc' (by omega))] at h
    obtain ⟨hrow, hcol⟩ := h
    obtain ⟨rfl, rfl⟩ := tileRow_inj ht ht' hrow
    -- count from the right end of the row: `c * bytes + b` on both sides
    have hadd := tileCol_add hc
    have hadd' := tileCol_add hc'
    have hsplit : (c + 1) * esize.bytes = c * esize.bytes + esize.bytes := by ring
    have hsplit' : (c' + 1) * esize.bytes = c' * esize.bytes + esize.bytes := by ring
    have hpos : c * esize.bytes + b = c' * esize.bytes + b' := by omega
    obtain ⟨rfl, rfl⟩ := offset_inj hb hb' hpos
    exact ⟨rfl, rfl, rfl, rfl⟩
  · rintro ⟨rfl, rfl, rfl, rfl⟩
    rfl

/-- Every ZA byte has tile coordinates at every element size. -/
theorem exists_tileByteAddr (esize : ElementSize) (a : BitVec m.zaAddrWidth) :
    ∃ t < esize.bytes, ∃ r < m.dim esize, ∃ c < m.dim esize, ∃ b < esize.bytes,
      a = tileByteAddr m esize t r c b := by
  obtain ⟨row, hrow, col, hcol, rfl⟩ := exists_byteAddr a
  have hpos := esize.bytes_pos
  have hdim := m.dim_mul_bytes esize
  -- column `col` is byte `p` counted from the right end of the row
  generalize hp : m.svlB - 1 - col = p
  have hr : row / esize.bytes < m.dim esize := by
    rw [Nat.div_lt_iff_lt_mul hpos, hdim]
    exact hrow
  have hc : p / esize.bytes < m.dim esize := by
    rw [Nat.div_lt_iff_lt_mul hpos, hdim]
    omega
  refine ⟨row % esize.bytes, Nat.mod_lt _ hpos, row / esize.bytes, hr, p / esize.bytes, hc,
    p % esize.bytes, Nat.mod_lt _ hpos, ?_⟩
  have hadd := tileCol_add hc
  have hsplit : (p / esize.bytes + 1) * esize.bytes =
      p / esize.bytes * esize.bytes + esize.bytes := by ring
  have hdivmod := Nat.div_add_mod' p esize.bytes
  have hlt := Nat.mod_lt p hpos
  have hrowEq : tileRow esize (row % esize.bytes) (row / esize.bytes) = row := by
    rw [tileRow, Nat.add_comm]
    exact Nat.div_add_mod' row esize.bytes
  rw [tileByteAddr, hrowEq]
  congr 1
  omega

end ArmSmeIla
