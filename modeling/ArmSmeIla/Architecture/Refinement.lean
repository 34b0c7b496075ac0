import ArmSmeIla.Architecture.Machine
import ArmSmeIla.Foundation.Simulation
import ArmSmeIla.Properties.Addresses
import ArmSmeIla.Properties.Faults
import ArmSmeIla.Properties.Indices
import ArmSmeIla.Properties.Modes
import ArmSmeIla.Properties.VectorLength
import ArmSmeIla.Properties.Zero

/-!
# The model refines the architectural machine

A state of the model shows a state of the architectural machine: the array its
byte memory writes down, the registers, DRAM, and a number of faults that the
8-bit counter holds modulo `2 ^ 8`. Each instruction of the model does on what
it shows what the architecture says, so runs correspond step by step.
-/

namespace ArmSmeIla.Arch

open Packing Lines

variable {m : ArmSme} {fp : FpFunctions} {s : ArmSmeIla.State m} {n : ℕ}

/-- What a state of the model shows, with `n` faults so far. -/
def view (s : ArmSmeIla.State m) (n : ℕ) : State m where
  za := rows s.za
  sm := s.pstateSm
  zaOn := s.pstateZa
  z := s.zRegs
  p := s.pRegs
  x := s.gprs
  sp := s.sp
  mem := s.dram
  faults := n

/-! ## Operands -/

section Operands

variable (s n)

theorem view_zReg (idx : BitVec 5) : (view s n).zReg idx = getVectorRegister s idx :=
  (getVectorRegister_eq s idx).symm

theorem view_pReg (idx : BitVec 4) : (view s n).pReg idx = getPredicateRegister s idx :=
  (getPredicateRegister_eq s idx).symm

theorem view_xReg (idx : BitVec 5) : (view s n).xReg idx = get64BitGPR s idx :=
  (selectChain_gpr s.gprs 0 idx).symm

theorem view_xRegSp (idx : BitVec 5) : (view s n).xRegSp idx = get64BitGPR s idx true :=
  (selectChain_gpr s.gprs s.sp idx).symm

theorem baseRegPlusImm_toNat {b : ℕ} (hb : b ≤ 32) (x : BitVec 32) (imm : BitVec b) :
    (baseRegPlusImm x imm).toNat = (x.toNat + imm.toNat) % 2 ^ 32 := by
  have hexact := baseRegPlusImm_mod x imm (dvd_refl (2 ^ 32))
  have hlt : (baseRegPlusImm x imm).toNat < 2 ^ 32 :=
    Nat.lt_of_lt_of_eq (baseRegPlusImm x imm).isLt (congrArg (2 ^ ·) (max_eq_left hb))
  rwa [Nat.mod_eq_of_lt hlt] at hexact

/-- The low half of an X register is the W register. -/
theorem view_wSum {b : ℕ} (hb : b ≤ 32) (idx : BitVec 5) (imm : BitVec b) :
    (view s n).wSum idx imm.toNat = (baseRegPlusImm (get32BitGPR s idx) imm).toNat := by
  have hlow : (get32BitGPR s idx).toNat = ((view s n).xReg idx).toNat % 2 ^ 32 := by
    rw [get32BitGPR_toNat, wRegister, State.xReg]
    by_cases h : idx.toNat < 31
    · rw [dif_pos h, dif_pos h]
      rfl
    · rw [dif_neg h, dif_neg h]
      rfl
  rw [baseRegPlusImm_toNat hb, hlow, State.wSum, Nat.mod_add_mod]

theorem sliceImm_toNat (inp : Inputs m) (esize : ElementSize) :
    (sliceImm inp esize).2.toNat = inp.imm.toNat % (16 / esize.bytes) := by
  cases esize with
  | quad => exact (Nat.mod_one _).symm
  | _ => exact BitVec.extractLsb'_toNat ..

theorem view_sliceAt (inp : Inputs m) (esize : ElementSize) :
    (view s n).sliceAt inp esize = sliceOf m esize (sliceIdx s inp esize) := by
  have hwidth : (sliceImm inp esize).1 ≤ 32 := by
    cases esize <;> simp [sliceImm]
  apply Fin.ext
  show (view s n).wSum inp.rs _ % m.dim esize = _
  rw [← sliceImm_toNat, view_wSum s n hwidth]
  rfl

theorem imm4_toNat (inp : Inputs m) : inp.imm4.toNat = inp.imm.toNat % 16 :=
  BitVec.extractLsb'_toNat ..

theorem view_rowAt (inp : Inputs m) :
    (view s n).rowAt inp = sliceOf m .byte (arrayRow s inp) := by
  rw [sliceOf_arrayRow]
  apply Fin.ext
  show (view s n).wSum inp.rv _ % m.svlB =
    (baseRegPlusImm (get32BitGPR s inp.rv) inp.imm4).toNat % m.svlB
  rw [← imm4_toNat, view_wSum s n (by decide)]

theorem view_typedBase (inp : Inputs m) (esize : ElementSize) :
    (view s n).typedBase inp esize = typedBaseAddr s inp esize := by
  rw [typedBaseAddr_eq, State.typedBase, view_xReg, view_xRegSp, typedAddress, Nat.add_zero,
    Nat.add_zero]

theorem view_rowBase (inp : Inputs m) : (view s n).rowBase inp = arrayAddr s inp := by
  rw [arrayAddr_eq_arrayAddress, State.rowBase, view_xRegSp, ← imm4_toNat]
  rfl

theorem view_both (inp : Inputs m) (esize : ElementSize) (r c : ℕ) :
    (view s n).both inp esize r c =
      ((getPredicateRegister s inp.pn).getLsbD (r * esize.bytes) &&
        (getPredicateRegister s inp.pm).getLsbD (c * esize.bytes)) := by
  rw [State.both, view_pReg, view_pReg]
  rfl

end Operands

/-! ## Memory -/

/-- Byte `b` of element `i`. -/
theorem offsetOf_eq (esize : ElementSize) (lowestFirst : Bool) (i : ℕ) {b : ℕ}
    (hb : b < esize.bytes) :
    offsetOf esize lowestFirst (i * esize.bytes + b) =
      i * esize.bytes + memByte esize lowestFirst b := by
  rw [offsetOf, memByte]
  cases lowestFirst with
  | true => rfl
  | false => rw [if_neg Bool.false_ne_true, if_neg Bool.false_ne_true, offset_div hb,
      Nat.mul_add_mod_of_lt hb]

/-- A byte of a vector and the offset at which the model keeps it. -/
theorem blockAddr_offsetOf (esize : ElementSize) (convertEndianness : Bool) (base : BitVec 128)
    (i : ℕ) {b : ℕ} (hb : b < esize.bytes) :
    base + BitVec.ofNat 128 (offsetOf esize (swaps m convertEndianness) (i * esize.bytes + b)) =
      laneByteAddr m esize convertEndianness base i b := by
  rw [offsetOf_eq esize _ i hb]
  rfl

theorem elem_loadVector (mem : BitVec 128 → BitVec 8) (base : BitVec 128) (esize : ElementSize)
    (lowestFirst : Bool) {j : ℕ} (hj : j < m.svlB) :
    elem (loadVector m mem base esize lowestFirst) j 8 =
      mem (base + BitVec.ofNat 128 (offsetOf esize lowestFirst j)) :=
  congrFun (lanes_vectorOf (m := m) fun j : SliceIdx m .byte =>
    mem (base + BitVec.ofNat 128 (offsetOf esize lowestFirst j))) ⟨j, hj⟩

/-- The byte order of single bytes does not matter. -/
theorem offsetOf_byte (lowestFirst : Bool) : offsetOf .byte lowestFirst = id := by
  funext j
  have hj := offsetOf_eq .byte lowestFirst j (b := 0) (by decide)
  have hmem : memByte .byte lowestFirst 0 = 0 := by cases lowestFirst <;> rfl
  have hone : j * ElementSize.byte.bytes + 0 = j := Nat.mul_one j
  rwa [hmem, hone] at hj

theorem loadVector_byte (mem : BitVec 128 → BitVec 8) (base : BitVec 128)
    (lowestFirst lowestFirst' : Bool) :
    loadVector m mem base .byte lowestFirst = loadVector m mem base .byte lowestFirst' := by
  simp only [loadVector, offsetOf_byte]

theorem storeVector_byte (mem : BitVec 128 → BitVec 8) (base : BitVec 128)
    (lowestFirst lowestFirst' : Bool) (isActive : ℕ → Bool) (v : BitVec m.svl) :
    storeVector mem base .byte lowestFirst isActive v =
      storeVector mem base .byte lowestFirst' isActive v := by
  unfold storeVector
  simp only [offsetOf_byte]

theorem dramGetVector_eq_loadVector (dram : DramMem) (base : BitVec 128) (esize : ElementSize)
    (convertEndianness : Bool) :
    dramGetVectorAsZaEndian m dram base esize convertEndianness =
      loadVector m dram base esize (swaps m convertEndianness) := by
  apply lanes_injective esize
  funext i
  apply ext_elem esize.bits_eq
  intro b hb
  have hbyte : i * esize.bytes + b < m.svlB := m.dim_mul_bytes esize ▸ offset_lt i.isLt hb
  rw [elem_dramGetVectorAsZaEndian dram base convertEndianness i ⟨b, hb⟩,
    elem_lanes _ i ⟨b, hb⟩, ← blockAddr_offsetOf esize convertEndianness base i hb]
  exact (elem_loadVector dram base esize _ hbyte).symm

/-- Storing the active elements, merged with what was there, leaves the others. -/
theorem dramSetVector_eq_storeVector (s : ArmSmeIla.State m) (base : BitVec 128)
    {v merged : BitVec m.svl} {isActive : ℕ → Bool} (esize : ElementSize)
    (convertEndianness : Bool)
    (hmerged : ∀ i : SliceIdx m esize, lanes esize merged i = if isActive i then lanes esize v i
      else lanes esize (dramGetVectorAsZaEndian m s.dram base esize convertEndianness) i) :
    (dramSetVectorAsDramEndian s base merged esize convertEndianness).dram =
      storeVector s.dram base esize (swaps m convertEndianness) isActive v := by
  funext addr
  by_cases h : InBlock m base addr
  · rcases (inBlock_iff_laneByteAddr esize convertEndianness base addr).mp h with ⟨i, b, rfl⟩
    have hb := memByte_lt (swaps m convertEndianness) b.isLt
    have hoffset : (laneByteAddr m esize convertEndianness base i b - base).toNat =
        i * esize.bytes + memByte esize (swaps m convertEndianness) b := by
      rw [laneByteAddr, blockAddr, BitVec.add_comm, BitVec.add_sub_cancel, BitVec.toNat_ofNat]
      exact Nat.mod_eq_of_lt (lt_dramAddr (m.dim_mul_bytes esize ▸ (offset_lt i.isLt hb).le))
    unfold InBlock at h
    rw [dramSetVector_laneByteAddr, hmerged, storeVector]
    simp only [hoffset, offset_div hb, offsetOf_eq esize _ i hb, memByte_memByte _ b.isLt]
    rw [hoffset] at h
    by_cases hactive : isActive i = true
    · rw [if_pos hactive, if_pos ⟨h, hactive⟩, elem_lanes]
    · rw [if_neg hactive, if_neg fun hc => hactive hc.2, elem_dramGetVectorAsZaEndian]
  · rw [dramSetVector_outside s base _ esize convertEndianness h, storeVector]
    exact (if_neg fun hc => h hc.1).symm

/-! ## ZA -/

section Za

variable (fp s n) (inp : Inputs m)

theorem rows_smstart : rows (smstart s).za = (view s n).newZa inp fp .smstart := by
  funext row
  show rows (resetSMEState s.za) row = 0
  rw [resetSMEState_eq]
  apply lanes_injective .byte
  rw [lanes_rows_byte]
  funext c
  apply ext_elem ElementSize.byte.bits_eq
  intro b hb
  rw [elem_tiles _ za0B row c ⟨b, hb⟩, elem_lanes _ c ⟨b, hb⟩]
  exact (elem_zero_vector _ 8).symm

theorem rows_zero : rows (zero s inp).za = (view s n).newZa inp fp .zero := by
  funext row
  apply lanes_injective .byte
  rw [lanes_rows_byte]
  funext c
  apply ext_elem ElementSize.byte.bits_eq
  intro b hb
  have hrow : zaRow (byteOf za0B row c ⟨b, hb⟩) = row := by
    refine (byteOf_row za0B row c ⟨b, hb⟩).trans ?_
    show 0 + (row : ℕ) * 1 = row
    omega
  have himm : inp.imm8 = inp.imm := BitVec.extractLsb'_eq_self
  rw [elem_tiles _ za0B row c ⟨b, hb⟩, zero_za, hrow, himm]
  show _ = elem (lanes .byte (if inp.imm.getLsbD (row % 8) ∧ (row : ℕ) < 64 then 0
    else rows s.za row) c) b 8
  by_cases h : inp.imm.getLsbD (row % 8) ∧ (row : ℕ) < 64
  · rw [if_pos h, if_pos h, elem_lanes _ c ⟨b, hb⟩]
    exact (elem_zero_vector _ 8).symm
  · rw [if_neg h, if_neg h, lanes_rows_byte, elem_tiles _ za0B row c ⟨b, hb⟩]

theorem rows_movaV2T (esize : ElementSize) :
    rows (movaV2T s inp esize).za = (view s n).newZa inp fp (.movaV2T esize) := by
  have ht := toConstrainedTileIndex_toNat inp.zad esize
  rw [State.newZa, view_sliceAt, view_pReg, view_zReg]
  apply rows_updateSingleTypedSlice ht
  intro i
  rw [lanes_maskWithSinglePredicate, lanes_getTypedSlice ht]
  rfl

theorem rows_ld1 (esize : ElementSize) :
    rows (ld1 s inp esize).za = (view s n).newZa inp fp (.ld1 esize) := by
  rw [State.newZa, view_sliceAt, view_pReg, view_typedBase]
  apply rows_updateSingleTypedSlice (toConstrainedTileIndex_toNat inp.zat esize)
  intro i
  rw [lanes_maskWithSinglePredicate, dramGetVector_eq_loadVector]
  rfl

theorem rows_ldr : rows (ldr s inp).za = (view s n).newZa inp fp .ldr := by
  rw [State.newZa, view_rowAt, view_rowBase]
  show rows (setTypedHorizontalSlice s.za (arrayRow s inp) _ .byte _) = _
  rw [rows_setTypedHorizontalSlice_byte (toNat_eq_za0B m.zaAddrWidth),
    dramGetVector_eq_loadVector, loadVector_byte _ _ _ true]
  rfl

theorem rows_addha (esize : ElementSize) : rows (addha s inp esize).za =
    mapTile (tileOf esize inp.zada) (fun r c old =>
      if (view s n).both inp esize r c then old + lanes esize ((view s n).zReg inp.zn) c
      else old) (rows s.za) := by
  simp only [view_both, view_zReg]
  exact rows_of_tiles (tiles_combineTileWithHorizontalVector
    (toConstrainedTileIndex_toNat inp.zada esize) s.za _ _ _ false _)

theorem rows_addva (esize : ElementSize) : rows (addva s inp esize).za =
    mapTile (tileOf esize inp.zada) (fun r c old =>
      if (view s n).both inp esize r c then old + lanes esize ((view s n).zReg inp.zn) r
      else old) (rows s.za) := by
  simp only [view_both, view_zReg]
  exact rows_of_tiles (tiles_combineTileWithVerticalVector
    (toConstrainedTileIndex_toNat inp.zada esize) s.za _ _ _ false _)

theorem rows_integerOuterProduct (op : IntegerOuterProduct) (esize : AccSize) :
    rows (integerOuterProduct s inp op esize).za =
      (view s n).newZa inp fp (.integerOuterProduct op esize) := by
  rw [State.newZa, view_zReg, view_zReg, view_pReg, view_pReg]
  have htiles := tiles_integerCombineTileWithMatrices
    (toConstrainedTileIndex_toNat inp.zada (esize : ElementSize)) s.za
    (getVectorRegister s inp.zn) (getVectorRegister s inp.zm) (getPredicateRegister s inp.pn)
    (getPredicateRegister s inp.pm) op.subOp op.op1Unsigned op.op2Unsigned
  simp only [integerDelta_eq_ofInt] at htiles
  exact rows_of_tiles htiles

theorem rows_wideningOuterProduct (op : WideningOuterProduct) :
    rows (wideningOuterProduct s inp fp op).za =
      (view s n).newZa inp fp (.wideningOuterProduct op) := by
  rw [State.newZa]
  simp only [view_both, view_zReg, view_pReg]
  rw [wideningOuterProduct_eq]
  exact rows_of_tiles (tiles_floatCombineTileWithMatricesK2
    (toConstrainedTileIndex_toNat inp.zada .word) s.za _ _ _ _ op.subOp
    (0 : BitVec ElementSize.half.bits) (op.negFn fp) (op.dotaddFn fp))

theorem rows_floatK1 (esize : ElementSize) (subOp : Bool)
    (negFn : BitVec esize.bits → BitVec esize.bits)
    (fmacFn : BitVec esize.bits → BitVec esize.bits → BitVec esize.bits → BitVec esize.bits) :
    rows (floatK1 s inp esize subOp negFn fmacFn).za =
      mapTile (tileOf esize inp.zada) (fun r c old =>
        if (view s n).both inp esize r c then
          fmacFn old (if subOp then negFn (lanes esize ((view s n).zReg inp.zn) r)
            else lanes esize ((view s n).zReg inp.zn) r) (lanes esize ((view s n).zReg inp.zm) c)
        else old) (rows s.za) := by
  simp only [view_both, view_zReg]
  exact rows_of_tiles (tiles_floatCombineTileWithMatricesK1
    (toConstrainedTileIndex_toNat inp.zada esize) s.za _ _ _ _ subOp negFn fmacFn)

theorem rows_exec (i : Instr) :
    rows (ArmSmeIla.exec fp i inp s).za = (view s n).newZa inp fp i := by
  cases i with
  | smstart => exact rows_smstart fp s n inp
  | movaV2T esize => exact rows_movaV2T fp s n inp esize
  | zero => exact rows_zero fp s n inp
  | addha esize => exact rows_addha s n inp esize
  | addva esize => exact rows_addva s n inp esize
  | integerOuterProduct op esize => exact rows_integerOuterProduct fp s n inp op esize
  | wideningOuterProduct op => exact rows_wideningOuterProduct fp s n inp op
  | fmopa esize => cases esize <;> exact rows_floatK1 s n inp _ false _ _
  | fmops esize => cases esize <;> exact rows_floatK1 s n inp _ true _ _
  | ld1 esize => exact rows_ld1 fp s n inp esize
  | ldr => exact rows_ldr fp s n inp
  | _ => rfl

end Za

/-! ## Registers -/

section Registers

variable (fp s n) (inp : Inputs m)

/-- A step that changes one vector register, given by its lanes. -/
theorem zRegs_of_only {esize : ElementSize} {t : ArmSmeIla.State m} {zd : BitVec 5}
    {f : SliceIdx m esize → BitVec esize.bits} (h : OnlyRegister zd s t)
    (hlanes : lanes esize (zReg t zd) = f) :
    t.zRegs = ((view s n).setZ zd (vectorOf esize f)).z := by
  rw [h, (eq_vectorOf_iff _ f).mpr hlanes]
  rfl

theorem zRegs_movaT2V (esize : ElementSize) :
    (movaT2V s inp esize).zRegs = (view s n).newZ inp (.movaT2V esize) := by
  have ht := toConstrainedTileIndex_toNat inp.zan esize
  refine zRegs_of_only s n (OnlyRegister.update s inp.zd _) ?_
  rw [view_sliceAt]
  simp only [view_pReg, view_zReg]
  funext i
  have hreg : zReg (movaT2V s inp esize) inp.zd = getVectorRegister (movaT2V s inp esize) inp.zd :=
    (getVectorRegister_eq ..).symm
  show lanes esize (zReg (movaT2V s inp esize) inp.zd) i = _
  rw [hreg, movaT2V, getVectorRegister_updateSingleVectorRegister, lanes_maskWithSinglePredicate,
    getTypedSlice_eq_slice ht]
  rfl

theorem zRegs_revd : (revd s inp).zRegs = (view s n).newZ inp .revd := by
  refine zRegs_of_only s n (OnlyRegister.update s inp.zd _) ?_
  funext i
  refine (elem_revd s inp i.isLt).trans ?_
  rw [Nat.mul_comm]
  rfl

theorem zRegs_clamp (esize : ElementSize) (isSigned : Bool) :
    (clamp s inp esize isSigned).zRegs = ((view s n).setZ inp.zd (vectorOf esize fun i =>
      clampLane isSigned (lanes esize ((view s n).zReg inp.zn) i)
        (lanes esize ((view s n).zReg inp.zm) i) (lanes esize ((view s n).zReg inp.zd) i))).z := by
  refine zRegs_of_only s n (OnlyRegister.update s inp.zd _) ?_
  funext i
  exact lanes_clamp s inp esize isSigned i

theorem clampLane_signed {w : ℕ} (minElem maxElem old : BitVec w) :
    clampLane true minElem maxElem old =
      BitVec.ofInt w (min (max minElem.toInt old.toInt) maxElem.toInt) := by
  have hvalue : (clampLane true minElem maxElem old).toInt = _ :=
    operandValue_clampLane true minElem maxElem old
  rw [← BitVec.ofInt_toInt (x := clampLane true minElem maxElem old), hvalue]
  rfl

theorem clampLane_unsigned {w : ℕ} (minElem maxElem old : BitVec w) :
    clampLane false minElem maxElem old =
      BitVec.ofNat w (min (max minElem.toNat old.toNat) maxElem.toNat) := by
  have hvalue : ((clampLane false minElem maxElem old).toNat : ℤ) =
      min (max (minElem.toNat : ℤ) old.toNat) maxElem.toNat :=
    operandValue_clampLane false minElem maxElem old
  have hnat : (clampLane false minElem maxElem old).toNat =
      min (max minElem.toNat old.toNat) maxElem.toNat := by omega
  rw [← hnat, BitVec.ofNat_toNat, BitVec.setWidth_eq]

theorem zRegs_exec (i : Instr) :
    (ArmSmeIla.exec fp i inp s).zRegs = (view s n).newZ inp i := by
  cases i with
  | movaT2V esize => exact zRegs_movaT2V s n inp esize
  | revd => exact zRegs_revd s n inp
  | sclamp esize =>
      refine (zRegs_clamp s n inp esize true).trans ?_
      simp only [clampLane_signed]
      rfl
  | uclamp esize =>
      refine (zRegs_clamp s n inp esize false).trans ?_
      simp only [clampLane_unsigned]
      rfl
  | wideningOuterProduct op => cases op <;> rfl
  | fmopa esize => cases esize <;> rfl
  | fmops esize => cases esize <;> rfl
  | _ => rfl

theorem pRegs_psel (esize : LaneSize) :
    (psel s inp esize).pRegs = (view s n).newP inp (.psel esize) := by
  have hwidth : 2 ^ Nat.log2 (m.dim esize) = m.dim esize := m.two_pow_log2_dim esize
  have himm : pselImm inp esize = sliceImm inp esize := by cases esize <;> rfl
  have hbits : (pselImm inp esize).1 ≤ 32 := by cases esize <;> simp [pselImm]
  have hindex : ((baseRegPlusImm (get32BitGPR s inp.rv) (pselImm inp esize).2).extractLsb' 0
      (Nat.log2 (m.dim esize))).toNat = (view s n).index esize inp.rv
        (inp.imm.toNat % (16 / (esize : ElementSize).bytes)) := by
    rw [BitVec.extractLsb'_toNat, Nat.shiftRight_zero, hwidth, ← view_wSum s n hbits, himm,
      sliceImm_toNat]
    rfl
  have htest := isActivated_eq (getPredicateRegister s inp.pm)
    ((view s n).index esize inp.rv (inp.imm.toNat % (16 / (esize : ElementSize).bytes)))
    esize.toElementSize.bits
  unfold isActivated at htest
  unfold psel
  rw [updateSinglePredicateRegister_eq, getPredBitFromLSBAt_eq _ _ hwidth, hindex, htest,
    State.newP, view_pReg, view_pReg]
  rfl

theorem pRegs_exec (i : Instr) :
    (ArmSmeIla.exec fp i inp s).pRegs = (view s n).newP inp i := by
  cases i with
  | psel esize => exact pRegs_psel s n inp esize
  | wideningOuterProduct op => cases op <;> rfl
  | fmopa esize => cases esize <;> rfl
  | fmops esize => cases esize <;> rfl
  | _ => rfl

theorem setXSp_eq (idx : BitVec 5) (val : BitVec 64) :
    ((view s n).setXSp idx val).x = (updateSingle64BitGPR s idx val true).gprs ∧
      ((view s n).setXSp idx val).sp = (updateSingle64BitGPR s idx val true).sp := by
  have hlt := idx.isLt
  unfold State.setXSp
  by_cases h : idx.toNat < 31
  · rw [dif_pos h]
    refine ⟨funext fun i => ?_, ?_⟩
    · show Function.update s.gprs ⟨idx.toNat, h⟩ val i = _
      rw [updateSingle64BitGPR_gprs, Function.update_apply]
      exact if_congr (by rw [Fin.ext_iff, eq_comm]) rfl rfl
    · rw [updateSingle64BitGPR_sp, if_neg (by omega)]
      rfl
  · rw [dif_neg h]
    refine ⟨funext fun i => ?_, ?_⟩
    · rw [updateSingle64BitGPR_gprs, if_neg (by omega)]
      rfl
    · rw [updateSingle64BitGPR_sp, if_pos ⟨rfl, by omega⟩]

theorem setX_eq (idx : BitVec 5) (val : BitVec 64) :
    ((view s n).setX idx val).x = (updateSingle64BitGPR s idx val).gprs ∧
      ((view s n).setX idx val).sp = (updateSingle64BitGPR s idx val).sp := by
  unfold State.setX
  by_cases h : idx.toNat < 31
  · rw [dif_pos h]
    refine ⟨funext fun i => ?_, rfl⟩
    show Function.update s.gprs ⟨idx.toNat, h⟩ val i = _
    rw [updateSingle64BitGPR_gprs, Function.update_apply]
    exact if_congr (by rw [Fin.ext_iff, eq_comm]) rfl rfl
  · rw [dif_neg h]
    refine ⟨funext fun i => ?_, rfl⟩
    rw [updateSingle64BitGPR_gprs, if_neg (by omega)]
    rfl

/-- A multiple of the vector length, added in 64 bits. -/
theorem ofInt_base_add (k : ℕ) :
    BitVec.ofInt 64 (((view s n).xRegSp inp.rn).toNat + inp.imm6.toInt * k) =
      BitVec.ofNat 64 k * inp.imm6.signExtend 64 + get64BitGPR s inp.rn true := by
  rw [ofNat_mul_signExtend, view_xRegSp, BitVec.ofInt_add, BitVec.ofInt_natCast,
    BitVec.ofNat_toNat, BitVec.setWidth_eq, BitVec.add_comm]

theorem gprs_exec (i : Instr) :
    (newX (view s n) inp i).x = (ArmSmeIla.exec fp i inp s).gprs ∧
      (newX (view s n) inp i).sp = (ArmSmeIla.exec fp i inp s).sp := by
  cases i with
  | addspl =>
      rw [newX, ofInt_base_add, ← pRegWidth_div]
      exact setXSp_eq s n inp.rd _
  | addsvl =>
      rw [newX, ofInt_base_add]
      exact setXSp_eq s n inp.rd _
  | rdsvl =>
      rw [newX, ← ofNat_mul_signExtend]
      exact setX_eq s n inp.rd _
  | wideningOuterProduct op => cases op <;> exact ⟨rfl, rfl⟩
  | fmopa esize => cases esize <;> exact ⟨rfl, rfl⟩
  | fmops esize => cases esize <;> exact ⟨rfl, rfl⟩
  | _ => exact ⟨rfl, rfl⟩

end Registers

/-! ## Memory, faults and modes -/

section Rest

variable (fp s n) (inp : Inputs m)

theorem dram_st1 (esize : ElementSize) :
    (st1 s inp esize).dram = newMem (view s n) inp (.st1 esize) := by
  rw [newMem, view_typedBase, view_pReg, view_sliceAt, show (view s n).za = rows s.za from rfl,
    ← getTypedSlice_eq_slice (toConstrainedTileIndex_toNat inp.zat esize)]
  refine dramSetVector_eq_storeVector s (typedBaseAddr s inp esize) esize true ?_
  intro i
  rw [lanes_maskWithSinglePredicate]
  rfl

theorem dram_str : (str s inp).dram = newMem (view s n) inp .str := by
  have hstore : (str s inp).dram =
      storeVector s.dram (arrayAddr s inp) .byte false (fun _ => true)
        (getTypedHorizontalSlice s.za (arrayRow s inp) (BitVec.ofNat m.zaAddrWidth 0) .byte) :=
    dramSetVector_eq_storeVector s (arrayAddr s inp) .byte false fun _ => (if_pos rfl).symm
  rw [hstore, getTypedHorizontalSlice_byte (toNat_eq_za0B m.zaAddrWidth), newMem, view_rowBase,
    view_rowAt, storeVector_byte _ _ _ true]
  rfl

theorem mem_exec (i : Instr) :
    (ArmSmeIla.exec fp i inp s).dram = newMem (view s n) inp i := by
  cases i with
  | st1 esize => exact dram_st1 s n inp esize
  | str => exact dram_str s n inp
  | wideningOuterProduct op => cases op <;> rfl
  | fmopa esize => cases esize <;> rfl
  | fmops esize => cases esize <;> rfl
  | _ => rfl

theorem faulting_iff (i : Instr) : faulting (view s n) inp i = true ↔ StepFaults s inp i := by
  cases i with
  | ld1 esize | st1 esize =>
      simp only [faulting, decide_eq_true_eq, StepFaults, AnyActive]
      rfl
  | ldr | str =>
      rw [faulting, decide_eq_true_eq, view_xRegSp, get64BitGPR_eq_baseRegister]
      rfl
  | _ => exact iff_of_false Bool.false_ne_true id

theorem enabled_eq (i : Instr) : enabled (view s n) inp i = decode i inp s := by
  unfold enabled decode
  rw [Bool.and_comm]
  cases i <;> rfl

theorem modes_exec (i : Instr) :
    (ArmSmeIla.exec fp i inp s).pstateSm = newMode i s.pstateSm ∧
      (ArmSmeIla.exec fp i inp s).pstateZa = newMode i s.pstateZa := by
  cases i with
  | wideningOuterProduct op => cases op <;> exact ⟨rfl, rfl⟩
  | fmopa esize => cases esize <;> exact ⟨rfl, rfl⟩
  | fmops esize => cases esize <;> exact ⟨rfl, rfl⟩
  | _ => exact ⟨rfl, rfl⟩

end Rest

/-! ## Steps and runs -/

/-- The architectural state is what the model's state shows, and the counter is
the number of faults modulo `2 ^ 8`. -/
structure Refines (s : ArmSmeIla.State m) (a : State m) : Prop where
  shown : a = view s a.faults
  counted : s.faults = BitVec.ofNat 8 a.faults

theorem refines_view (s : ArmSmeIla.State m) : Refines s (view s s.faults.toNat) where
  shown := rfl
  counted := by
    show s.faults = BitVec.ofNat 8 s.faults.toNat
    rw [BitVec.ofNat_toNat, BitVec.setWidth_eq]

theorem exec_view (fp : FpFunctions) (s : ArmSmeIla.State m) (n : ℕ) (inp : Inputs m) (i : Instr) :
    exec fp i inp (view s n) =
      view (ArmSmeIla.exec fp i inp s) (exec fp i inp (view s n)).faults := by
  have hmodes := modes_exec fp s inp i
  have hgprs := gprs_exec fp s n inp i
  ext1
  · exact (rows_exec fp s n inp i).symm
  · exact hmodes.1.symm
  · exact hmodes.2.symm
  · exact (zRegs_exec fp s n inp i).symm
  · exact (pRegs_exec fp s n inp i).symm
  · exact hgprs.1
  · exact hgprs.2
  · exact (mem_exec fp s n inp i).symm
  · rfl

/-- One step of the model is one step of the architecture. -/
theorem Refines.exec {a : State m} (h : Refines s a) (fp : FpFunctions) (inp : Inputs m)
    (i : Instr) : Refines (ArmSmeIla.exec fp i inp s) (Arch.exec fp i inp a) := by
  rcases h with ⟨hshown, hcounted⟩
  refine ⟨?_, ?_⟩
  · rw [hshown]
    exact exec_view fp s _ inp i
  · have hfaulting := faulting_iff s a.faults inp i
    rw [← hshown] at hfaulting
    show _ = BitVec.ofNat 8 (if faulting a inp i then a.faults + 1 else a.faults)
    rw [exec_faults_eq, hcounted]
    by_cases hf : StepFaults s inp i
    · rw [if_pos hf, if_pos (hfaulting.mpr hf), BitVec.ofNat_add]
      rfl
    · rw [if_neg hf, if_neg (mt hfaulting.mp hf)]

theorem Refines.enabled_eq {a : State m} (h : Refines s a) (inp : Inputs m) (i : Instr) :
    enabled a inp i = decode i inp s := by
  rw [h.shown]
  exact Arch.enabled_eq s _ inp i

theorem Refines.path {a : State m} (h : Refines s a) {fp : FpFunctions} {t : ArmSmeIla.State m}
    {ls : List (Label m)} (run : ArmSmeIla.Path fp s ls t) :
    ∃ b, Path fp a ls b ∧ Refines t b := by
  refine Runs.simulated (Q := fun _ => True) ?_ run (fun _ _ => trivial) h
  rintro s a l t h - ⟨hdecode, rfl⟩
  exact ⟨_, ⟨(h.enabled_eq l.2 l.1).trans hdecode, rfl⟩, h.exec fp l.2 l.1⟩

theorem Refines.path_back {a : State m} (h : Refines s a) {fp : FpFunctions} {b : State m}
    {ls : List (Label m)} (run : Path fp a ls b) :
    ∃ t, ArmSmeIla.Path fp s ls t ∧ Refines t b := by
  refine Runs.simulated (Q := fun _ => True) (R := fun a s => Refines s a) ?_ run
    (fun _ _ => trivial) h
  rintro a s l b h - ⟨henabled, rfl⟩
  exact ⟨_, ⟨(h.enabled_eq l.2 l.1).symm.trans henabled, rfl⟩, h.exec fp l.2 l.1⟩

/-- Every architectural state is shown by some state of the model. -/
theorem exists_refines (a : State m) : ∃ s : ArmSmeIla.State m, Refines s a := by
  rcases rows_surjective a.za with ⟨za, hza⟩
  let s : ArmSmeIla.State m :=
    { faults := BitVec.ofNat 8 a.faults, za := za, pstateSm := a.sm, pstateZa := a.zaOn, sp := a.sp,
      zRegs := a.z, pRegs := a.p, gprs := a.x, dram := a.mem, wbSvlVector := 0, wbBaseAddr := 0 }
  have hshown : a = view s a.faults := by
    ext1
    · exact hza.symm
    all_goals rfl
  exact ⟨s, hshown, rfl⟩

/-- The runs of the model and those of the architecture match, label by label,
from any two related states. -/
theorem runs_match (fp : FpFunctions) (ls : List (Label m)) :
    (∀ s t, ArmSmeIla.Path fp s ls t → ∀ a, Refines s a → ∃ b, Path fp a ls b ∧ Refines t b) ∧
      ∀ a b, Path fp a ls b → (∃ s, Refines s a) ∧
        ∀ s, Refines s a → ∃ t, ArmSmeIla.Path fp s ls t ∧ Refines t b := by
  constructor
  · intro s t run a h
    exact h.path run
  · intro a b run
    exact ⟨exists_refines a, fun s h => h.path_back run⟩

end ArmSmeIla.Arch
