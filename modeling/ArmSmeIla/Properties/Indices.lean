import ArmSmeIla.Properties.LoadStore
import ArmSmeIla.Properties.SpillFill

/-!
# Indices

A slice, row or predicate element is selected by a register plus an immediate.
The source adds in 32 bits and cuts the sum down to the bits of the index; as
the number of slices, rows or elements divides `2 ^ 32`, the result is the sum
of the two numbers modulo that count, wrapped or not.
-/

namespace ArmSmeIla

open Packing Lines

variable {m : ArmSme} {fp : FpFunctions} {esize : ElementSize}

/-! ## Sums -/

/-- The number in a W register: the low half of the X register, 0 for 31. -/
def wRegister (s : State m) (wIdx : BitVec 5) : ℕ :=
  if h : wIdx.toNat < 31 then (s.gprs ⟨wIdx.toNat, h⟩).toNat % 2 ^ 32 else 0

theorem get32BitGPR_toNat (s : State m) (wIdx : BitVec 5) :
    (get32BitGPR s wIdx).toNat = wRegister s wIdx := by
  have hchain : get32BitGPR s wIdx = _ :=
    selectChain_gpr (fun i => (s.gprs i).extractLsb' 0 32) 0 wIdx
  rw [hchain, wRegister]
  by_cases h : wIdx.toNat < 31
  · rw [dif_pos h, dif_pos h, BitVec.extractLsb'_toNat, Nat.shiftRight_zero]
  · rw [dif_neg h, dif_neg h]
    rfl

/-- The carry out of the sum is a multiple of every divisor of `2 ^ w`. -/
theorem baseRegPlusImm_mod {a b n : ℕ} (x : BitVec a) (imm : BitVec b) (hn : n ∣ 2 ^ a) :
    (baseRegPlusImm x imm).toNat % n = (x.toNat + imm.toNat) % n := by
  have hx : x.toNat < 2 ^ max a b :=
    Nat.lt_of_lt_of_le x.isLt (Nat.pow_le_pow_right (by decide) (le_max_left a b))
  have himm : imm.toNat < 2 ^ max a b :=
    Nat.lt_of_lt_of_le imm.isLt (Nat.pow_le_pow_right (by decide) (le_max_right a b))
  rw [baseRegPlusImm, BitVec.toNat_add, BitVec.toNat_setWidth, BitVec.toNat_setWidth,
    Nat.mod_eq_of_lt hx, Nat.mod_eq_of_lt himm]
  exact Nat.mod_mod_of_dvd _ (hn.trans (Nat.pow_dvd_pow 2 (le_max_left a b)))

theorem svlB_dvd_two_pow (h : m.svl ≤ 2048) : m.svlB ∣ 2 ^ 32 := by
  rcases m.exists_svlB_eq_pow with ⟨k, _, _, hsvl, hsvlB⟩
  have hle : (2 : ℕ) ^ k ≤ 2 ^ 8 := by omega
  rw [hsvlB]
  exact Nat.pow_dvd_pow 2 (Nat.le_trans ((Nat.pow_le_pow_iff_right (by decide)).mp hle) (by decide))

/-- The index that a register and an immediate stand for, among `dim` many. -/
def exactIndex (m : ArmSme) (esize : ElementSize) (w imm : ℕ) : SliceIdx m esize :=
  ⟨(w + imm) % m.dim esize, Nat.mod_lt _ (m.dim_pos esize)⟩

section Exact

variable (hsvl : m.svl ≤ 2048) (s : State m) (inp : Inputs m)

include hsvl

theorem sliceOf_sliceIdx (esize : ElementSize) :
    sliceOf m esize (sliceIdx s inp esize) =
      exactIndex m esize (wRegister s inp.rs) (sliceImm inp esize).2.toNat := by
  have hdvd := (dim_dvd_svlB m esize).trans (svlB_dvd_two_pow hsvl)
  apply Fin.ext
  rw [← get32BitGPR_toNat]
  exact baseRegPlusImm_mod (get32BitGPR s inp.rs) (sliceImm inp esize).2 hdvd

theorem sliceOf_arrayRow_exact :
    sliceOf m .byte (arrayRow s inp) = exactIndex m .byte (wRegister s inp.rv) inp.imm4.toNat := by
  rw [sliceOf_arrayRow]
  apply Fin.ext
  rw [← get32BitGPR_toNat]
  exact baseRegPlusImm_mod (get32BitGPR s inp.rv) inp.imm4 (svlB_dvd_two_pow hsvl)

end Exact

/-! ## Slices and rows -/

/-- The typed slice instructions work on slice `k` of the tile they select. -/
structure SelectsSlice (fp : FpFunctions) (s : State m) (inp : Inputs m) (esize : ElementSize)
    (k : SliceIdx m esize) : Prop where
  movaT2V : ∀ i : SliceIdx m esize,
    lanes esize (getVectorRegister (exec fp (.movaT2V esize) inp s) inp.zd) i =
      if isActivated (getPredicateRegister s inp.pg) i esize.bits then
        line inp.hv (tiles esize s.za) (tileOf esize inp.zan) k i
      else lanes esize (getVectorRegister s inp.zd) i
  movaV2T : tiles esize (exec fp (.movaV2T esize) inp s).za =
    setLine inp.hv (tiles esize s.za) (tileOf esize inp.zad) k fun i =>
      if isActivated (getPredicateRegister s inp.pg) i esize.bits then
        lanes esize (getVectorRegister s inp.zn) i
      else line inp.hv (tiles esize s.za) (tileOf esize inp.zad) k i
  ld1 : tiles esize (exec fp (.ld1 esize) inp s).za =
    setLine inp.hv (tiles esize s.za) (tileOf esize inp.zat) k fun i =>
      if isActivated (getPredicateRegister s inp.pg) i esize.bits then
        lanes esize (dramGetVectorAsZaEndian m s.dram (typedBaseAddr s inp esize) esize) i
      else 0
  st1 : ∀ i : SliceIdx m esize,
    lanes esize (dramGetVectorAsZaEndian m (exec fp (.st1 esize) inp s).dram
        (typedBaseAddr s inp esize) esize) i =
      if isActivated (getPredicateRegister s inp.pg) i esize.bits then
        line inp.hv (tiles esize s.za) (tileOf esize inp.zat) k i
      else lanes esize (dramGetVectorAsZaEndian m s.dram (typedBaseAddr s inp esize) esize) i

theorem selectsSlice (fp : FpFunctions) (s : State m) (inp : Inputs m) (esize : ElementSize) :
    SelectsSlice fp s inp esize (sliceOf m esize (sliceIdx s inp esize)) where
  movaT2V := by
    intro i
    show lanes esize (getVectorRegister (movaT2V s inp esize) inp.zd) i = _
    rw [movaT2V, getVectorRegister_updateSingleVectorRegister,
      lanes_maskWithSinglePredicate_isActivated,
      lanes_getTypedSlice (toConstrainedTileIndex_toNat inp.zan esize)]
    exact if_congr Iff.rfl rfl (if_neg Bool.false_ne_true)
  movaV2T := by
    refine (tiles_updateSingleTypedSlice (toConstrainedTileIndex_toNat inp.zad esize) s.za inp.hv
      (sliceIdx s inp esize) _).trans ?_
    congr 1
    funext i
    rw [lanes_maskWithSinglePredicate_isActivated,
      lanes_getTypedSlice (toConstrainedTileIndex_toNat inp.zad esize)]
    exact if_congr Iff.rfl rfl (if_neg Bool.false_ne_true)
  ld1 := by
    refine (tiles_updateSingleTypedSlice (toConstrainedTileIndex_toNat inp.zat esize) s.za inp.hv
      (sliceIdx s inp esize) _).trans ?_
    congr 1
    funext i
    rw [lanes_maskWithSinglePredicate_isActivated]
    exact if_congr Iff.rfl rfl (if_pos rfl)
  st1 := by
    intro i
    show lanes esize (dramGetVectorAsZaEndian m (st1 s inp esize).dram (typedBaseAddr s inp esize)
      esize) i = _
    rw [dramGetVector_st1, lanes_maskWithSinglePredicate_isActivated, lanes_namedSlice]
    exact if_congr Iff.rfl rfl (if_neg Bool.false_ne_true)

/-- `LDR` and `STR` work on row `r` of ZA. -/
structure SelectsRow (fp : FpFunctions) (s : State m) (inp : Inputs m) (r : SliceIdx m .byte) :
    Prop where
  ldr : tiles .byte (exec fp .ldr inp s).za = setLine false (tiles .byte s.za) za0B r
    (lanes .byte (dramGetVectorAsZaEndian m s.dram (arrayAddr s inp) .byte false))
  str : lanes .byte (dramGetVectorAsZaEndian m (exec fp .str inp s).dram (arrayAddr s inp) .byte
    false) = line false (tiles .byte s.za) za0B r

theorem selectsRow (fp : FpFunctions) (s : State m) (inp : Inputs m) :
    SelectsRow fp s inp (sliceOf m .byte (arrayRow s inp)) where
  ldr := tiles_updateSingleTypedSlice (toNat_eq_za0B m.zaAddrWidth) s.za false (arrayRow s inp) _
  str := by
    show lanes .byte (dramGetVectorAsZaEndian m (str s inp).dram (arrayAddr s inp) .byte false) = _
    rw [dramGetVector_str]
    exact lanes_getTypedSlice (toNat_eq_za0B m.zaAddrWidth) s.za false (arrayRow s inp)

/-! ## Predicate elements -/

/-- The `Ite` chain over all elements tests the one with the index. -/
theorem getPredBitFromLSBAt_eq (mask : BitVec m.pRegWidth) {w : ℕ} (idx : BitVec w)
    (hw : 2 ^ w = m.dim esize) :
    getPredBitFromLSBAt mask idx esize = getPredBitFromLSB mask idx.toNat esize.bits := by
  have hlt := idx.isLt
  have hname : ∀ j ∈ List.range' 1 (m.dim esize - 1), idx = BitVec.ofNat w j → j = idx.toNat := by
    intro j hj heq
    rw [List.mem_range'_1] at hj
    rw [heq, BitVec.toNat_ofNat, Nat.mod_eq_of_lt (by omega)]
  rcases Nat.eq_zero_or_pos idx.toNat with hz | hpos
  · rw [hz]
    refine Loops.foldl_frame (fun bit : BitVec 1 => bit) ?_ _
    intro j hj bit
    refine if_neg fun heq => ?_
    have hj' := hname j hj heq
    rw [List.mem_range'_1] at hj
    omega
  · refine Loops.foldl_once (fun bit : BitVec 1 => bit)
      (fun _ => getPredBitFromLSB mask idx.toNat esize.bits) List.nodup_range'
      (i := idx.toNat) ?_ ?_ ?_ _
    · rw [List.mem_range'_1]
      omega
    · intro bit
      exact if_pos (by rw [BitVec.ofNat_toNat, BitVec.setWidth_eq])
    · intro j hj hne bit
      exact if_neg fun heq => hne (hname j hj heq)

/-- The bit that `PSEL` tests. -/
theorem psel_eq (s : State m) (inp : Inputs m) (esize : LaneSize) (hdvd : m.svlB ∣ 2 ^ 32) :
    psel s inp esize = { s with
      pRegs := Function.update s.pRegs ⟨inp.pd.toNat, inp.pd.isLt⟩
        (if (s.pRegs ⟨inp.pm.toNat, inp.pm.isLt⟩).getLsbD
            ((exactIndex m esize (wRegister s inp.rv) (pselImm inp esize).2.toNat : ℕ) *
              esize.toElementSize.bytes) then
          s.pRegs ⟨inp.pn.toNat, inp.pn.isLt⟩
        else 0) } := by
  have hwidth : 2 ^ Nat.log2 (m.dim esize) = m.dim esize := m.two_pow_log2_dim esize
  have hindex : ((baseRegPlusImm (get32BitGPR s inp.rv) (pselImm inp esize).2).extractLsb' 0
      (Nat.log2 (m.dim esize))).toNat =
        exactIndex m esize (wRegister s inp.rv) (pselImm inp esize).2.toNat := by
    rw [BitVec.extractLsb'_toNat, Nat.shiftRight_zero, hwidth,
      baseRegPlusImm_mod _ _ ((dim_dvd_svlB m esize).trans hdvd), get32BitGPR_toNat]
    rfl
  have htest := isActivated_eq (getPredicateRegister s inp.pm)
    (exactIndex m esize (wRegister s inp.rv) (pselImm inp esize).2.toNat) esize.toElementSize.bits
  unfold isActivated at htest
  unfold psel
  rw [updateSinglePredicateRegister_eq, getPredBitFromLSBAt_eq _ _ hwidth, hindex, htest,
    getPredicateRegister_eq, getPredicateRegister_eq]
  rfl

/-- With `w + imm` an exact sum: the slice instructions select slice
`(w + imm) % (SVL / esize)`, the row instructions row `(w + imm) % SVL_B`, and
`PSEL` tests element `(w + imm) % (SVL / esize)`. -/
theorem indices_exact (fp : FpFunctions) (m : ArmSme) (hsvl : m.svl ≤ 2048) (s : State m)
    (inp : Inputs m) :
    (∀ esize, SelectsSlice fp s inp esize
      (exactIndex m esize (wRegister s inp.rs) (sliceImm inp esize).2.toNat)) ∧
    SelectsRow fp s inp (exactIndex m .byte (wRegister s inp.rv) inp.imm4.toNat) ∧
    ∀ esize : LaneSize, exec fp (.psel esize) inp s = { s with
      pRegs := Function.update s.pRegs ⟨inp.pd.toNat, inp.pd.isLt⟩
        (if (s.pRegs ⟨inp.pm.toNat, inp.pm.isLt⟩).getLsbD
            ((exactIndex m esize (wRegister s inp.rv) (pselImm inp esize).2.toNat : ℕ) *
              esize.toElementSize.bytes) then
          s.pRegs ⟨inp.pn.toNat, inp.pn.isLt⟩
        else 0) } := by
  refine ⟨?_, ?_, ?_⟩
  · intro esize
    rw [← sliceOf_sliceIdx hsvl]
    exact selectsSlice fp s inp esize
  · rw [← sliceOf_arrayRow_exact hsvl]
    exact selectsRow fp s inp
  · intro esize
    exact psel_eq s inp esize (svlB_dvd_two_pow hsvl)

/-- `0xFFFFFFFF + 3` overflows; it selects element 2 of the four words, with the
tested register as the destination. -/
theorem indices_exact_overflow :
    let s : State smeDramLE := { (default : State smeDramLE) with
      gprs := fun _ => 0xFFFFFFFF, pRegs := fun i => if i = 1 then 0x0100 else 0x00FF }
    let inp : Inputs smeDramLE := { (default : Inputs smeDramLE) with
      imm := 3, pd := 1, pn := 2, pm := 1 }
    (exec default (.psel .word) inp s).pRegs 1 = 0x00FF := by
  intro s inp
  rw [(indices_exact default smeDramLE (by decide) s inp).2.2 .word]
  decide

end ArmSmeIla
