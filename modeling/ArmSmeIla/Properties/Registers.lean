import ArmSmeIla.Foundation.Stores
import ArmSmeIla.Model.Registers
import ArmSmeIla.Properties.VectorLength

/-!
# The register files

Vector and predicate registers, X registers with their W halves, and index 31,
which is `SP`, `XZR` or `WZR`: after any calls of the update helpers, each reader
gives what the last call left that wrote its register.
-/

namespace ArmSmeIla

open Stores

variable {m : ArmSme}

/-! ## What an update leaves for a reader -/

namespace RegisterUpdate

def vectorHit (zIdx : BitVec 5) : RegisterUpdate m → Option (BitVec m.svl)
  | .vector idx val => if idx = zIdx then some val else none
  | _ => none

def predicateHit (pIdx : BitVec 4) : RegisterUpdate m → Option (BitVec m.pRegWidth)
  | .predicate idx val => if idx = pIdx then some val else none
  | _ => none

/-- A W register is written as an X register. Index 31 holds a value only as `SP`. -/
def gprHit (xIdx : BitVec 5) (useSp : Bool) : RegisterUpdate m → Option (BitVec 64)
  | .gpr32 idx val => if idx = xIdx ∧ xIdx ≠ 31 then some (val.setWidth 64) else none
  | .gpr64 idx val toSp =>
      if idx = xIdx ∧ (xIdx = 31 → useSp = true ∧ toSp = true) then some val else none
  | _ => none

end RegisterUpdate

open RegisterUpdate

section Reads

variable (s : State m) (update : RegisterUpdate m)

theorem getVectorRegister_apply (zIdx : BitVec 5) :
    getVectorRegister (update.apply s) zIdx =
      (update.vectorHit zIdx).getD (getVectorRegister s zIdx) := by
  cases update with
  | vector idx val =>
      show getVectorRegister (updateSingleVectorRegister s idx val) zIdx = _
      rw [getVectorRegister_eq, getVectorRegister_eq, vectorHit]
      show (if idx = BitVec.ofNat 5 zIdx.toNat then val else _) = _
      rw [BitVec.ofNat_toNat, BitVec.setWidth_eq]
      split <;> rfl
  | _ => rfl

theorem getPredicateRegister_apply (pIdx : BitVec 4) :
    getPredicateRegister (update.apply s) pIdx =
      (update.predicateHit pIdx).getD (getPredicateRegister s pIdx) := by
  cases update with
  | predicate idx val =>
      show getPredicateRegister (updateSinglePredicateRegister s idx val) pIdx = _
      rw [getPredicateRegister_eq, getPredicateRegister_eq, predicateHit]
      show (if idx = BitVec.ofNat 4 pIdx.toNat then val else _) = _
      rw [BitVec.ofNat_toNat, BitVec.setWidth_eq]
      split <;> rfl
  | _ => rfl

theorem get64BitGPR_register {xIdx : BitVec 5} (h : xIdx.toNat < 31) (useSp : Bool) :
    get64BitGPR s xIdx useSp = s.gprs ⟨xIdx.toNat, h⟩ := by
  have hchain := fun last : BitVec 64 => selectChain_gpr s.gprs last xIdx
  cases useSp with
  | true => exact (hchain s.sp).trans (dif_pos h)
  | false => exact (hchain 0).trans (dif_pos h)

/-- The W register is the low half of the X register, also as `WZR` and `XZR`. -/
theorem get32BitGPR_eq (wIdx : BitVec 5) :
    get32BitGPR s wIdx = (get64BitGPR s wIdx).extractLsb' 0 32 := by
  have hw : get32BitGPR s wIdx = _ :=
    selectChain_gpr (fun i => (s.gprs i).extractLsb' 0 32) 0 wIdx
  have hx : get64BitGPR s wIdx = _ := selectChain_gpr s.gprs 0 wIdx
  rw [hw, hx]
  by_cases h : wIdx.toNat < 31
  · rw [dif_pos h, dif_pos h]
  · rw [dif_neg h, dif_neg h]
    rfl

theorem get64BitGPR_update64 (idx : BitVec 5) (val : BitVec 64) (toSp : Bool) (xIdx : BitVec 5)
    (useSp : Bool) :
    get64BitGPR (updateSingle64BitGPR s idx val toSp) xIdx useSp =
      if idx = xIdx ∧ (xIdx = 31 → useSp = true ∧ toSp = true) then val
      else get64BitGPR s xIdx useSp := by
  by_cases h31 : xIdx = 31
  · subst h31
    cases useSp with
    | false =>
        have hzero : ∀ s : State m, get64BitGPR s 31 = 0 := fun _ => rfl
        rw [hzero, hzero, if_neg]
        rintro ⟨-, hsp⟩
        exact Bool.false_ne_true (hsp rfl).1
    | true =>
        have hsp : ∀ s : State m, get64BitGPR s 31 true = s.sp := fun _ => rfl
        rw [hsp, hsp, updateSingle64BitGPR_sp]
        refine if_congr ?_ rfl rfl
        rw [← BitVec.toNat_inj, and_comm]
        simp
  · have h : xIdx.toNat < 31 := by
      have := xIdx.isLt
      have hne : xIdx.toNat ≠ 31 := fun hc => h31 (BitVec.eq_of_toNat_eq hc)
      omega
    rw [get64BitGPR_register _ h, get64BitGPR_register _ h, updateSingle64BitGPR_gprs]
    refine if_congr ?_ rfl rfl
    rw [← BitVec.toNat_inj]
    exact ⟨fun heq => ⟨heq, fun hc => absurd hc h31⟩, And.left⟩

theorem get64BitGPR_apply (xIdx : BitVec 5) (useSp : Bool) :
    get64BitGPR (update.apply s) xIdx useSp =
      (update.gprHit xIdx useSp).getD (get64BitGPR s xIdx useSp) := by
  cases update with
  | gpr32 idx val =>
      show get64BitGPR (updateSingle64BitGPR s idx (val.setWidth 64)) xIdx useSp = _
      rw [get64BitGPR_update64, gprHit]
      have hdisregarded : (xIdx = 31 → useSp = true ∧ false = true) ↔ xIdx ≠ 31 := by simp
      refine (if_congr (and_congr_right' hdisregarded) rfl rfl).trans ?_
      split <;> rfl
  | gpr64 idx val toSp =>
      show get64BitGPR (updateSingle64BitGPR s idx val toSp) xIdx useSp = _
      rw [get64BitGPR_update64, gprHit]
      split <;> rfl
  | _ => rfl

end Reads

/-! ## The concrete readers -/

section SizeT

variable (s : State m)

theorem getVectorRegisterSizeT_eq (zIdx : ℕ) : getVectorRegisterSizeT s zIdx =
    if zIdx < 32 then some (getVectorRegister s (BitVec.ofNat 5 zIdx)) else none := by
  unfold getVectorRegisterSizeT
  by_cases h : zIdx < 32
  · have hname : (BitVec.ofNat 5 zIdx).toNat = zIdx := Nat.mod_eq_of_lt h
    rw [dif_pos h, if_pos h, getVectorRegister_eq]
    exact congrArg (fun i => some (s.zRegs i)) (Fin.ext hname.symm)
  · rw [dif_neg h, if_neg h]

theorem getPredicateRegisterSizeT_eq (pIdx : ℕ) : getPredicateRegisterSizeT s pIdx =
    if pIdx < 16 then some (getPredicateRegister s (BitVec.ofNat 4 pIdx)) else none := by
  unfold getPredicateRegisterSizeT
  by_cases h : pIdx < 16
  · have hname : (BitVec.ofNat 4 pIdx).toNat = pIdx := Nat.mod_eq_of_lt h
    rw [dif_pos h, if_pos h, getPredicateRegister_eq]
    exact congrArg (fun i => some (s.pRegs i)) (Fin.ext hname.symm)
  · rw [dif_neg h, if_neg h]

theorem get64BitGPRSizeT_eq (xIdx : ℕ) (useSp : Bool) : get64BitGPRSizeT s xIdx useSp =
    if xIdx ≤ 31 then some (get64BitGPR s (BitVec.ofNat 5 xIdx) useSp) else none := by
  unfold get64BitGPRSizeT
  by_cases h31 : xIdx = 31
  · subst h31
    cases useSp <;> rfl
  rw [if_neg h31]
  by_cases h : xIdx < 31
  · have hname : (BitVec.ofNat 5 xIdx).toNat = xIdx := Nat.mod_eq_of_lt (by omega)
    rw [dif_pos h, if_pos h.le, get64BitGPR_register s (hname.symm ▸ h)]
    exact congrArg (fun i => some (s.gprs i)) (Fin.ext hname.symm)
  · rw [dif_neg h, if_neg (by omega)]

theorem get32BitGPRSizeT_eq (wIdx : ℕ) : get32BitGPRSizeT s wIdx =
    (get64BitGPRSizeT s wIdx).map fun x => x.extractLsb' 0 32 := by
  unfold get32BitGPRSizeT get64BitGPRSizeT
  by_cases h31 : wIdx = 31
  · rw [if_pos h31, if_pos h31]
    rfl
  rw [if_neg h31, if_neg h31]
  by_cases h : wIdx < 31
  · rw [dif_pos h, dif_pos h]
    rfl
  · rw [dif_neg h, dif_neg h]
    rfl

end SizeT

/-! ## All updates -/

/-- The update helpers touch nothing but the register files and `SP`. -/
theorem apply_frame (s : State m) (updates : List (RegisterUpdate m)) :
    let t := updates.foldl apply s
    t = { s with zRegs := t.zRegs, pRegs := t.pRegs, gprs := t.gprs, sp := t.sp } := by
  induction updates using List.reverseRecOn with
  | nil => rfl
  | append_singleton updates update ih =>
      intro t
      have hstep : t = update.apply (updates.foldl apply s) := List.foldl_append
      rw [hstep, ih]
      cases update <;> rfl

/-- After any sequence of updates the symbolic readers give the last value that
hit, the concrete ones give the same for every index that exists and fail for the
others, and the rest of the state is as before. -/
theorem registers_last_hit (s : State m) (updates : List (RegisterUpdate m)) :
    let t := updates.foldl apply s
    (∀ zIdx, getVectorRegister t zIdx =
      (lastHit (vectorHit zIdx) updates).getD (getVectorRegister s zIdx)) ∧
    (∀ pIdx, getPredicateRegister t pIdx =
      (lastHit (predicateHit pIdx) updates).getD (getPredicateRegister s pIdx)) ∧
    (∀ xIdx useSp, get64BitGPR t xIdx useSp =
      (lastHit (gprHit xIdx useSp) updates).getD (get64BitGPR s xIdx useSp)) ∧
    (∀ wIdx, get32BitGPR t wIdx =
      ((lastHit (gprHit wIdx false) updates).getD (get64BitGPR s wIdx)).extractLsb' 0 32) ∧
    (∀ idx, getVectorRegisterSizeT t idx =
        (if idx < 32 then some (getVectorRegister t (BitVec.ofNat 5 idx)) else none) ∧
      getPredicateRegisterSizeT t idx =
        (if idx < 16 then some (getPredicateRegister t (BitVec.ofNat 4 idx)) else none) ∧
      (∀ useSp, get64BitGPRSizeT t idx useSp =
        if idx ≤ 31 then some (get64BitGPR t (BitVec.ofNat 5 idx) useSp) else none) ∧
      get32BitGPRSizeT t idx =
        if idx ≤ 31 then some (get32BitGPR t (BitVec.ofNat 5 idx)) else none) ∧
    t = { s with zRegs := t.zRegs, pRegs := t.pRegs, gprs := t.gprs, sp := t.sp } := by
  intro t
  have hx : ∀ xIdx useSp, get64BitGPR t xIdx useSp =
      (lastHit (gprHit xIdx useSp) updates).getD (get64BitGPR s xIdx useSp) := fun xIdx useSp =>
    read_foldl apply (get64BitGPR · xIdx useSp) (get64BitGPR_apply · · xIdx useSp) s updates
  refine ⟨fun zIdx => ?_, fun pIdx => ?_, hx, fun wIdx => ?_, fun idx => ?_, apply_frame s updates⟩
  · exact read_foldl apply (getVectorRegister · zIdx) (getVectorRegister_apply · · zIdx) s updates
  · exact read_foldl apply (getPredicateRegister · pIdx) (getPredicateRegister_apply · · pIdx) s
      updates
  · rw [get32BitGPR_eq, hx]
  · refine ⟨getVectorRegisterSizeT_eq t idx, getPredicateRegisterSizeT_eq t idx,
      get64BitGPRSizeT_eq t idx, ?_⟩
    rw [get32BitGPRSizeT_eq, get64BitGPRSizeT_eq, get32BitGPR_eq]
    split <;> rfl

end ArmSmeIla
