import ArmSmeIla.Views.CombineMatrix
import ArmSmeIla.Views.Footprints

/-!
# Lane by lane instructions

`SCLAMP`, `UCLAMP` and `REVD` compute each lane of one register from the same
lane of their operands. What a lane becomes is stated on the registers before
the step, so it holds whichever of the operands are one register.
-/

namespace ArmSmeIla

open Packing

variable {m : ArmSme} {fp : FpFunctions} {w : ℕ}

/-- Register `Z<idx>`. -/
def zReg (s : State m) (idx : BitVec 5) : BitVec m.svl := s.zRegs ⟨idx.toNat, idx.isLt⟩

/-- Only `Z<zd>` may change from `s` to `t`. -/
def OnlyRegister (zd : BitVec 5) (s t : State m) : Prop :=
  t = { s with zRegs := Function.update s.zRegs ⟨zd.toNat, zd.isLt⟩ (zReg t zd) }

namespace OnlyRegister

variable {zd : BitVec 5} {s t u : State m}

theorem update (s : State m) (zd : BitVec 5) (val : BitVec m.svl) :
    OnlyRegister zd s (updateSingleVectorRegister s zd val) := by
  simp only [OnlyRegister, zReg, updateSingleVectorRegister_eq, Function.update_self]

theorem other (h : OnlyRegister zd s t) {idx : BitVec 5} (hne : idx ≠ zd) :
    zReg t idx = zReg s idx := by
  rw [h]
  apply Function.update_of_ne
  intro heq
  exact hne (BitVec.eq_of_toNat_eq (Fin.val_eq_of_eq heq))

theorem trans (hst : OnlyRegister zd s t) (htu : OnlyRegister zd t u) : OnlyRegister zd s u := by
  unfold OnlyRegister at htu ⊢
  rw [htu, hst]
  simp only [zReg, Function.update_idem, Function.update_self]

/-- A register that is back at its value makes the states equal. -/
theorem eq (h : OnlyRegister zd s t) (hreg : zReg t zd = zReg s zd) : t = s := by
  rw [h, hreg, zReg, Function.update_eq_self]

end OnlyRegister

/-! ## CLAMP -/

/-- What one lane becomes. -/
def clampLane (isSigned : Bool) (minElem maxElem old : BitVec w) : BitVec w :=
  if isSigned then smin (smax minElem old) maxElem else umin (umax old minElem) maxElem

theorem map_ite_max {α : Type*} (value : α → ℤ) {test : Bool} {a b : α}
    (h : test = true ↔ value b < value a) :
    value (if test then a else b) = max (value a) (value b) := by
  by_cases ht : test = true
  · rw [if_pos ht, max_eq_left (le_of_lt (h.mp ht))]
  · rw [if_neg ht, max_eq_right (not_lt.mp (mt h.mpr ht))]

theorem map_ite_min {α : Type*} (value : α → ℤ) {test : Bool} {a b : α}
    (h : test = true ↔ value a < value b) :
    value (if test then a else b) = min (value a) (value b) := by
  by_cases ht : test = true
  · rw [if_pos ht, min_eq_left (le_of_lt (h.mp ht))]
  · rw [if_neg ht, min_eq_right (not_lt.mp (mt h.mpr ht))]

theorem operandValue_injective (opUnsigned : Bool) :
    Function.Injective (operandValue (w := w) · opUnsigned) := by
  intro x y h
  cases opUnsigned with
  | false => exact BitVec.toInt_inj.mp h
  | true => exact BitVec.eq_of_toNat_eq (Int.ofNat.inj h)

/-- The two argument orders of the source come to the same. -/
theorem operandValue_clampLane (isSigned : Bool) (minElem maxElem old : BitVec w) :
    operandValue (clampLane isSigned minElem maxElem old) (!isSigned) =
      min (max (operandValue minElem !isSigned) (operandValue old !isSigned))
        (operandValue maxElem !isSigned) := by
  cases isSigned with
  | false =>
      have hlt : ∀ x y : BitVec w, x.ult y = true ↔ operandValue x true < operandValue y true := by
        intro x y
        rw [BitVec.ult_iff_toNat_lt]
        exact Int.ofNat_lt.symm
      have hmax := map_ite_max (operandValue · true) (hlt minElem old)
      have hmin := map_ite_min (operandValue · true) (hlt (umax old minElem) maxElem)
      rw [max_comm]
      exact hmin.trans (congrArg (min · _) hmax)
  | true =>
      have hlt : ∀ x y : BitVec w, x.slt y = true ↔ operandValue x false < operandValue y false :=
        fun x y => BitVec.slt_iff_toInt_lt
      have hmax := map_ite_max (operandValue · false) (hlt old minElem)
      have hmin := map_ite_min (operandValue · false) (hlt (smax minElem old) maxElem)
      exact hmin.trans (congrArg (min · _) hmax)

/-- Clamping a clamped lane, where either bound may be the lane itself. -/
theorem clampLane_clampLane (isSigned : Bool) (minElem maxElem old minElem' maxElem' : BitVec w)
    (hmin : minElem' = minElem ∨ minElem' = clampLane isSigned minElem maxElem old)
    (hmax : maxElem' = maxElem ∨ maxElem' = clampLane isSigned minElem maxElem old) :
    clampLane isSigned minElem' maxElem' (clampLane isSigned minElem maxElem old) =
      clampLane isSigned minElem maxElem old := by
  apply operandValue_injective (!isSigned)
  show operandValue _ (!isSigned) = operandValue _ (!isSigned)
  have hvalue := operandValue_clampLane isSigned minElem maxElem old
  rw [operandValue_clampLane]
  rcases hmin with rfl | rfl <;> rcases hmax with rfl | rfl <;> omega

/-- `SCLAMP` or `UCLAMP`. -/
def clampInstr (isSigned : Bool) (esize : LaneSize) : Instr :=
  if isSigned then .sclamp esize else .uclamp esize

section Clamp

variable (s : State m) (inp : Inputs m) (esize : ElementSize) (isSigned : Bool)

theorem lanes_clamp (i : SliceIdx m esize) :
    lanes esize (zReg (clamp s inp esize isSigned) inp.zd) i =
      clampLane isSigned (lanes esize (zReg s inp.zn) i) (lanes esize (zReg s inp.zm) i)
        (lanes esize (zReg s inp.zd) i) := by
  simp only [clamp, updateSingleVectorRegister_eq, zReg, Function.update_self,
    getVectorRegister_eq, lanes_concatenateFromLSB]
  rfl

/-- An operand of the second step is as it was, or the clamped register. -/
theorem lanes_operand_clamp (idx : BitVec 5) (i : SliceIdx m esize) :
    lanes esize (zReg (clamp s inp esize isSigned) idx) i = lanes esize (zReg s idx) i ∨
      lanes esize (zReg (clamp s inp esize isSigned) idx) i =
        clampLane isSigned (lanes esize (zReg s inp.zn) i) (lanes esize (zReg s inp.zm) i)
          (lanes esize (zReg s inp.zd) i) := by
  by_cases h : idx = inp.zd
  · right
    rw [h, lanes_clamp]
  · left
    rw [clamp, (OnlyRegister.update s inp.zd _).other h]

theorem clamp_clamp :
    clamp (clamp s inp esize isSigned) inp esize isSigned = clamp s inp esize isSigned := by
  have honly : OnlyRegister inp.zd (clamp s inp esize isSigned)
      (clamp (clamp s inp esize isSigned) inp esize isSigned) := OnlyRegister.update ..
  apply honly.eq
  apply lanes_injective esize
  funext i
  rw [lanes_clamp, lanes_clamp]
  exact clampLane_clampLane isSigned _ _ _ _ _ (lanes_operand_clamp s inp esize isSigned inp.zn i)
    (lanes_operand_clamp s inp esize isSigned inp.zm i)

end Clamp

theorem exec_clampInstr (fp : FpFunctions) (s : State m) (inp : Inputs m) (esize : LaneSize)
    (isSigned : Bool) : exec fp (clampInstr isSigned esize) inp s = clamp s inp esize isSigned := by
  cases isSigned <;> rfl

/-- `min (max n d) m` in every lane, whichever registers coincide; once is enough. -/
theorem clamp_exact (fp : FpFunctions) (m : ArmSme) (s : State m) (inp : Inputs m)
    (esize : LaneSize) (isSigned : Bool) :
    let value (reg : BitVec 5) (t : State m) (i : SliceIdx m esize) : ℤ :=
      operandValue (lanes esize (zReg t reg) i) (!isSigned)
    let s' := exec fp (clampInstr isSigned esize) inp s
    (∀ i, value inp.zd s' i = min (max (value inp.zn s i) (value inp.zd s i)) (value inp.zm s i)) ∧
    (∀ i, value inp.zm s i < value inp.zn s i →
      lanes esize (zReg s' inp.zd) i = lanes esize (zReg s inp.zm) i) ∧
    OnlyRegister inp.zd s s' ∧ exec fp (clampInstr isSigned esize) inp s' = s' := by
  intro value s'
  have hs' : s' = clamp s inp esize isSigned := exec_clampInstr fp s inp esize isSigned
  have hlane : ∀ i, value inp.zd s' i =
      min (max (value inp.zn s i) (value inp.zd s i)) (value inp.zm s i) := by
    intro i
    show operandValue (lanes esize (zReg s' inp.zd) i) (!isSigned) = _
    rw [hs', lanes_clamp, operandValue_clampLane]
  refine ⟨hlane, ?_, ?_, ?_⟩
  · intro i hlt
    apply operandValue_injective (!isSigned)
    have hmin : value inp.zd s' i = value inp.zm s i := by
      rw [hlane]
      omega
    exact hmin
  · rw [hs']
    exact OnlyRegister.update ..
  · rw [hs', exec_clampInstr, clamp_clamp]

/-- The bounds are -2 and -3, and the lower one is the destination. -/
theorem clamp_exact_inverted :
    let s : State smeDramLE := { (default : State smeDramLE) with
      zRegs := fun i => if i = 1 then 0xFFFE else 0xFFFD }
    let inp : Inputs smeDramLE := { (default : Inputs smeDramLE) with zn := 1, zm := 2, zd := 1 }
    lanes .half (zReg (exec default (clampInstr true .half) inp s) 1) ⟨0, by decide⟩ =
      lanes .half (zReg s 2) ⟨0, by decide⟩ := by
  intro s inp
  exact (clamp_exact default smeDramLE s inp .half true).2.1 ⟨0, by decide⟩ (by decide)

/-! ## REVD -/

/-- The 64-bit halves exchanged. -/
def swapHalves (x : BitVec 128) : BitVec 128 := x.extractLsb' 0 64 ++ x.extractLsb' 64 64

theorem elem_swapHalves_low (x : BitVec 128) : elem (swapHalves x) 0 64 = elem x 1 64 := by
  rw [swapHalves, elem_append_low (k := 1) _ _ (Nat.one_mul 64).symm Nat.one_pos, elem_self]
  rfl

theorem elem_swapHalves_high (x : BitVec 128) : elem (swapHalves x) 1 64 = elem x 0 64 := by
  have hhigh := elem_append_high (e := 64) (x.extractLsb' 0 64) (x.extractLsb' 64 64) (k := 1)
    (Nat.one_mul 64).symm 0
  rw [elem_self] at hhigh
  exact hhigh

theorem swapHalves_swapHalves (x : BitVec 128) : swapHalves (swapHalves x) = x := by
  apply ext_elem (n := 2) (e := 64) rfl
  intro i hi
  rcases (by omega : i = 0 ∨ i = 1) with rfl | rfl
  · rw [elem_swapHalves_low, elem_swapHalves_high]
  · rw [elem_swapHalves_high, elem_swapHalves_low]

section Revd

variable (s : State m) (inp : Inputs m)

theorem elem_revd {i : ℕ} (hi : i < m.dim .quad) :
    elem (zReg (revd s inp) inp.zd) i 128 =
      if (s.pRegs ⟨inp.pg.toNat, inp.pg.isLt⟩).getLsbD (16 * i) then
        swapHalves (elem (zReg s inp.zn) i 128)
      else elem (zReg s inp.zd) i 128 := by
  have hreg : zReg (revd s inp) inp.zd = getVectorRegister (revd s inp) inp.zd :=
    (getVectorRegister_eq ..).symm
  rw [hreg, revd, getVectorRegister_updateSingleVectorRegister]
  refine (elem_concatenateFromLSB (m.dim_mul_bits .quad) _ hi).trans ?_
  show (if isActivated (getPredicateRegister s inp.pg) i 128 then
    swapHalves (elem (getVectorRegister s inp.zn) i 128)
    else elem (getVectorRegister s inp.zd) i 128) = _
  rw [isActivated_eq, getPredicateRegister_eq, getVectorRegister_eq, getVectorRegister_eq,
    Nat.mul_comm]
  rfl

/-- What went into `Zd` comes back to `Zn`. -/
theorem zReg_revd_revd {back : Inputs m} (hzd : back.zd = inp.zn) (hzn : back.zn = inp.zd)
    (hpg : s.pRegs ⟨back.pg.toNat, back.pg.isLt⟩ = s.pRegs ⟨inp.pg.toNat, inp.pg.isLt⟩) :
    zReg (revd (revd s inp) back) inp.zn = zReg s inp.zn := by
  have hmask : (revd s inp).pRegs ⟨back.pg.toNat, back.pg.isLt⟩ =
      s.pRegs ⟨inp.pg.toNat, inp.pg.isLt⟩ := hpg
  apply ext_elem (m.dim_mul_bits .quad).symm
  intro i hi
  have hback := elem_revd (revd s inp) back hi
  rw [hzd, hzn, hmask, elem_revd s inp hi] at hback
  refine hback.trans ?_
  by_cases hactive : (s.pRegs ⟨inp.pg.toNat, inp.pg.isLt⟩).getLsbD (16 * i) = true
  · rw [if_pos hactive, if_pos hactive]
    exact swapHalves_swapHalves _
  · rw [if_neg hactive]
    by_cases hreg : inp.zn = inp.zd
    · rw [hreg, elem_revd s inp hi, if_neg hactive]
      rfl
    · rw [revd, (OnlyRegister.update s inp.zd _).other hreg]
      rfl

end Revd

/-- Active quadwords of `Zn` with their halves exchanged, merged into `Zd`.
Twice in place, or there and back, restores the register. -/
theorem revd_exact (fp : FpFunctions) (m : ArmSme) (s : State m) (inp : Inputs m) :
    let s' := exec fp .revd inp s
    (∀ i < m.dim .quad, getElementInVectorFromLSB (zReg s' inp.zd) i 128 =
      if (s.pRegs ⟨inp.pg.toNat, inp.pg.isLt⟩).getLsbD (16 * i) then
        swapHalves (getElementInVectorFromLSB (zReg s inp.zn) i 128)
      else getElementInVectorFromLSB (zReg s inp.zd) i 128) ∧
    OnlyRegister inp.zd s s' ∧
    (inp.zd = inp.zn → exec fp .revd inp s' = s) ∧
    ∀ back : Inputs m, back.zd = inp.zn → back.zn = inp.zd → inp.zd ≠ inp.zn →
      s.pRegs ⟨back.pg.toNat, back.pg.isLt⟩ = s.pRegs ⟨inp.pg.toNat, inp.pg.isLt⟩ →
      zReg (exec fp .revd back s') inp.zn = zReg s inp.zn := by
  intro s'
  refine ⟨fun i hi => elem_revd s inp hi, OnlyRegister.update .., ?_, ?_⟩
  · intro hsame
    have honly : OnlyRegister inp.zd s (revd (revd s inp) inp) :=
      (OnlyRegister.update s inp.zd _).trans (OnlyRegister.update ..)
    have hreg := zReg_revd_revd s inp hsame hsame.symm rfl
    rw [← hsame] at hreg
    exact honly.eq hreg
  · intro back hzd hzn _ hpg
    exact zReg_revd_revd s inp hzd hzn hpg

/-- One of two quadwords is active. -/
theorem revd_exact_merge :
    let s : State smeLargeSVL := { (default : State smeLargeSVL) with
      zRegs := fun i => if i = 1 then 0x0123456789ABCDEF else -1, pRegs := fun _ => 0x00000001 }
    let inp : Inputs smeLargeSVL := { (default : Inputs smeLargeSVL) with zn := 1, zd := 2 }
    let s' := exec default .revd inp s
    getElementInVectorFromLSB (zReg s' 2) 1 128 = getElementInVectorFromLSB (zReg s 2) 1 128 ∧
      zReg (exec default .revd { inp with zn := 2, zd := 1 } s') 1 = zReg s 1 := by
  intro s inp s'
  have h := revd_exact default smeLargeSVL s inp
  constructor
  · exact (h.1 1 (by decide)).trans (if_neg (by decide))
  · exact h.2.2.2 { inp with zn := 2, zd := 1 } rfl rfl (by decide) rfl

end ArmSmeIla
