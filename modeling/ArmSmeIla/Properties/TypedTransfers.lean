import ArmSmeIla.Properties.Addresses

/-!
# What one typed transfer does

`ST1` and `LD1` byte by byte: which bytes of DRAM, or of ZA, hold what
afterwards, and everything that stays as it was.
-/

namespace ArmSmeIla

open Packing

variable {m : ArmSme} {fp : FpFunctions} {esize : ElementSize}

/-! ## Elements in memory -/

/-- Byte `j`, counted from the lowest address, of an element stored in DRAM. -/
def storedByte (m : ArmSme) {esize : ElementSize} (x : BitVec esize.bits) (j : ℕ) : BitVec 8 :=
  if m.dramIsLE then getElementInVectorFromLSB x j 8
  else getElementInVectorFromMSB x j 8 esize.bits

/-- The number that the bytes from `addr` on stand for in DRAM's byte order. -/
def loadedValue (m : ArmSme) (dram : DramMem) (addr : BitVec 128) (esize : ElementSize) : ℕ :=
  ∑ j ∈ Finset.range esize.bytes, (dram (blockAddr addr j)).toNat *
    256 ^ (if m.dramIsLE then j else esize.bytes - 1 - j)

theorem storedByte_eq (x : BitVec esize.bits) (j : ℕ) :
    storedByte m x j = elem x (memByte esize (swaps m true) j) 8 := by
  unfold storedByte memByte swaps
  cases m.dramIsLE <;> rfl

/-- Summing over the places of the bytes instead of their addresses. -/
theorem toNat_dramGetElementAsZaEndian (dram : DramMem) (addr : BitVec 128) :
    (dramGetElementAsZaEndian m dram addr esize).toNat = loadedValue m dram addr esize := by
  rw [toNat_eq_sum_elem esize.bits_eq, loadedValue]
  have hbyte : ∀ b ∈ Finset.range esize.bytes,
      (elem (dramGetElementAsZaEndian m dram addr esize) b 8).toNat * 2 ^ (b * 8) =
        (dram (blockAddr addr (memByte esize m.dramIsLE b))).toNat * 256 ^ b := by
    intro b hb
    rw [elem_dramGetElementAsZaEndian dram addr true (Finset.mem_range.mp hb), Nat.mul_comm b,
      pow_mul]
    rfl
  rw [Finset.sum_congr rfl hbyte]
  unfold memByte
  cases m.dramIsLE with
  | true => rfl
  | false =>
      simp only [Bool.false_eq_true, if_false]
      rw [← Finset.sum_range_reflect]
      refine Finset.sum_congr rfl ?_
      intro b hb
      have hlt := Finset.mem_range.mp hb
      rw [show esize.bytes - 1 - (esize.bytes - 1 - b) = b by omega]

/-! ## ST1 -/

/-- The block of a typed transfer is an interval. -/
theorem typedBaseAddr_add_svlB_le (s : State m) (inp : Inputs m) (esize : ElementSize) :
    (typedBaseAddr s inp esize).toNat + m.svlB ≤ 2 ^ 128 := by
  have hdim := m.dim_pos esize
  have hbytes := esize.bytes_pos
  -- the last byte of the last element
  have hlast : typedAddress s inp esize (m.dim esize - 1) (esize.bytes - 1) < 2 ^ 128 :=
    typedAddress_lt s inp (by omega) (by omega)
  have hsize : (m.dim esize - 1) * esize.bytes + (esize.bytes - 1) + 1 = m.svlB := by
    have hsplit := offset_last hdim esize.bytes
    rw [← m.dim_mul_bytes esize]
    omega
  rw [typedAddress_eq] at hlast
  rw [typedBaseAddr_eq, BitVec.toNat_ofNat, Nat.mod_eq_of_lt (by omega)]
  omega

/-- `ST1` writes the active elements of the slice, byte by byte in DRAM's order,
and nothing else. -/
theorem st1_writes_active (fp : FpFunctions) (m : ArmSme) (s : State m) (inp : Inputs m)
    (esize : ElementSize) :
    let base := typedBaseAddr s inp esize
    let s' := exec fp (.st1 esize) inp s
    base.toNat + m.svlB ≤ 2 ^ 128 ∧
    (∀ i < m.dim esize, ∀ j < esize.bytes,
      s'.dram (blockAddr base (i * esize.bytes + j)) =
        if isActivated (getPredicateRegister s inp.pg) i esize.bits then
          storedByte m (getElementInVectorFromLSB (namedSlice s inp esize) i esize.bits) j
        else s.dram (blockAddr base (i * esize.bytes + j))) ∧
    (∀ addr : BitVec 128, addr.toNat < base.toNat ∨ base.toNat + m.svlB ≤ addr.toNat →
      s'.dram addr = s.dram addr) ∧
    s'.za = s.za ∧ s'.zRegs = s.zRegs ∧ s'.pRegs = s.pRegs ∧ s'.gprs = s.gprs ∧ s'.sp = s.sp ∧
      s'.pstateSm = s.pstateSm ∧ s'.pstateZa = s.pstateZa := by
  intro base s'
  have hblock := typedBaseAddr_add_svlB_le s inp esize
  rcases exec_gprs fp (i := .st1 esize) inp s rfl with ⟨hgprs, hsp⟩
  rcases exec_modes fp (i := .st1 esize) inp s rfl with ⟨hsm, hza⟩
  refine ⟨hblock, ?_, ?_, exec_za fp inp s rfl, exec_zRegs fp inp s rfl, exec_pRegs fp inp s rfl,
    hgprs, hsp, hsm, hza⟩
  · intro i hi j hj
    rw [blockAddr_typedBaseAddr, storedByte_eq]
    exact (typedAccess fp s inp esize).store i hi j hj
  · intro addr hout
    apply dramSetVector_outside
    rw [inBlock_iff_toNat hblock]
    show ¬(base.toNat ≤ addr.toNat ∧ addr.toNat < base.toNat + m.svlB)
    omega

/-- Only element 1 of a column of halfwords, on big endian DRAM: its most
significant byte goes first. -/
theorem st1_writes_active_half :
    let s : State smeDramBE := { (default : State smeDramBE) with
      za := fun addr => addr.setWidth 8, pRegs := fun _ => 0x0004, gprs := fun _ => 0x1000 }
    let inp : Inputs smeDramBE := { (default : Inputs smeDramBE) with hv := true }
    (exec default (.st1 .half) inp s).dram 0x3002 = 0x2E ∧
      (exec default (.st1 .half) inp s).dram 0x3000 = 0 := by
  intro s inp
  have hbytes := (st1_writes_active default smeDramBE s inp .half).2.1
  have hbase : typedBaseAddr s inp .half = 0x3000 := by decide
  rw [hbase] at hbytes
  constructor
  · exact (hbytes 1 (by decide) 0 (by decide)).trans (by decide)
  · exact (hbytes 0 (by decide) 0 (by decide)).trans (by decide)

/-! ## LD1 -/

/-- `LD1` fills the slice with the numbers in DRAM where active and with zero
elsewhere, and changes nothing else. -/
theorem ld1_fills_slice (fp : FpFunctions) (m : ArmSme) (s : State m) (inp : Inputs m)
    (esize : ElementSize) :
    let base := typedBaseAddr s inp esize
    let s' := exec fp (.ld1 esize) inp s
    base.toNat + m.svlB ≤ 2 ^ 128 ∧
    (∀ i < m.dim esize,
      (getElementInVectorFromLSB (namedSlice s' inp esize) i esize.bits).toNat =
        if isActivated (getPredicateRegister s inp.pg) i esize.bits then
          loadedValue m s.dram (blockAddr base (i * esize.bytes)) esize
        else 0) ∧
    (∀ addr, ¬InSlice esize inp.hv (tileOf esize inp.zat)
        (sliceOf m esize (sliceIdx s inp esize)) addr → s'.za addr = s.za addr) ∧
    s'.dram = s.dram ∧ s'.wbSvlVector = s.wbSvlVector ∧ s'.wbBaseAddr = s.wbBaseAddr ∧
      s'.zRegs = s.zRegs ∧ s'.pRegs = s.pRegs ∧ s'.gprs = s.gprs ∧ s'.sp = s.sp ∧
      s'.pstateSm = s.pstateSm ∧ s'.pstateZa = s.pstateZa := by
  intro base s'
  rcases exec_gprs fp (i := .ld1 esize) inp s rfl with ⟨hgprs, hsp⟩
  rcases exec_modes fp (i := .ld1 esize) inp s rfl with ⟨hsm, hza⟩
  rcases exec_dram fp (i := .ld1 esize) inp s rfl with ⟨hdram, hvector, haddr⟩
  refine ⟨typedBaseAddr_add_svlB_le s inp esize, ?_, ?_, hdram, hvector, haddr,
    exec_zRegs fp inp s rfl, exec_pRegs fp inp s rfl, hgprs, hsp, hsm, hza⟩
  · intro i hi
    show (lanes esize (namedSlice (ld1 s inp esize) inp esize) ⟨i, hi⟩).toNat = _
    rw [namedSlice_ld1, lanes_maskWithSinglePredicate_isActivated]
    by_cases hactive : isActivated (getPredicateRegister s inp.pg) i esize.bits = true
    · rw [if_pos hactive, if_pos hactive, lanes_dramGetVectorAsZaEndian,
        toNat_dramGetElementAsZaEndian]
    · rw [if_neg hactive, if_neg hactive, if_pos rfl]
      rfl
  · intro addr hout
    exact updateSingleTypedSlice_outside (toConstrainedTileIndex_toNat inp.zat esize) s.za inp.hv
      (sliceIdx s inp esize) _ hout

/-- The same column, filled from little endian DRAM. -/
theorem ld1_fills_slice_half :
    let s : State smeDramLE := { (default : State smeDramLE) with
      dram := fun addr => addr.setWidth 8, pRegs := fun _ => 0x0004, gprs := fun _ => 0x1000 }
    let inp : Inputs smeDramLE := { (default : Inputs smeDramLE) with hv := true }
    (getElementInVectorFromLSB (namedSlice (exec default (.ld1 .half) inp s) inp .half) 1
        16).toNat = 0x0302 ∧
      (getElementInVectorFromLSB (namedSlice (exec default (.ld1 .half) inp s) inp .half) 0
        16).toNat = 0 := by
  intro s inp
  have helems := (ld1_fills_slice default smeDramLE s inp .half).2.1
  have hbase : typedBaseAddr s inp .half = 0x3000 := by decide
  rw [hbase] at helems
  constructor
  · exact (helems 1 (by decide)).trans (by decide)
  · exact (helems 0 (by decide)).trans (by decide)

end ArmSmeIla
