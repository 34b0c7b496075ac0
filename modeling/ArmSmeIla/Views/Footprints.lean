import ArmSmeIla.Model.Instructions

/-!
# What an instruction leaves alone

The state is cut into parts, and each instruction has a table of the parts it
updates. The frame theorem says that the table is complete; facts about runs
then need a look only at the instructions that write the part in question.
-/

namespace ArmSmeIla

variable {m : ArmSme}

/-- The parts of the state. DRAM comes with the captured write. -/
inductive Part where
  | faults
  | za
  | modes
  | zRegs
  | pRegs
  | gprs
  | dram
deriving DecidableEq, Repr

namespace Part

def Value (m : ArmSme) : Part → Type
  | faults => BitVec 8
  | za => ZaMem m
  | modes => Bool × Bool
  | zRegs => Fin 32 → BitVec m.svl
  | pRegs => Fin 16 → BitVec m.pRegWidth
  | gprs => (Fin 31 → BitVec 64) × BitVec 64
  | dram => DramMem × BitVec m.svl × BitVec 128

def read : (p : Part) → State m → p.Value m
  | faults, s => s.faults
  | za, s => s.za
  | modes, s => (s.pstateSm, s.pstateZa)
  | zRegs, s => s.zRegs
  | pRegs, s => s.pRegs
  | gprs, s => (s.gprs, s.sp)
  | dram, s => (s.dram, s.wbSvlVector, s.wbBaseAddr)

end Part

/-- The parts an instruction updates. -/
def Instr.writes : Instr → Part → Bool
  | .smstart, p => p = .modes || p = .zRegs || p = .pRegs || p = .za
  | .smstop, p => p = .modes || p = .zRegs || p = .pRegs
  | .movaT2V _, p | .revd, p | .sclamp _, p | .uclamp _, p => p = .zRegs
  | .movaV2T _, p | .zero, p | .addha _, p | .addva _, p | .integerOuterProduct _ _, p
  | .wideningOuterProduct _, p | .fmopa _, p | .fmops _, p => p = .za
  | .addspl, p | .addsvl, p | .rdsvl, p => p = .gprs
  | .ld1 _, p | .ldr, p => p = .za || p = .faults
  | .st1 _, p | .str, p => p = .dram || p = .faults
  | .psel _, p => p = .pRegs

/-- Parts outside the table keep their value. -/
theorem exec_frame (fp : FpFunctions) (i : Instr) (inp : Inputs m) (s : State m) {p : Part}
    (h : i.writes p = false) : p.read (exec fp i inp s) = p.read s := by
  cases i with
  | wideningOuterProduct op => cases op <;> cases p <;> first | rfl | cases h
  | fmopa esize => cases esize <;> cases p <;> first | rfl | cases h
  | fmops esize => cases esize <;> cases p <;> first | rfl | cases h
  | _ => cases p <;> first | rfl | cases h

/-! ## The frame theorem part by part -/

section Parts

variable (fp : FpFunctions) {i : Instr} (inp : Inputs m) (s : State m)

theorem exec_faults (h : i.writes .faults = false) : (exec fp i inp s).faults = s.faults :=
  exec_frame fp i inp s h

theorem exec_za (h : i.writes .za = false) : (exec fp i inp s).za = s.za :=
  exec_frame fp i inp s h

theorem exec_zRegs (h : i.writes .zRegs = false) : (exec fp i inp s).zRegs = s.zRegs :=
  exec_frame fp i inp s h

theorem exec_pRegs (h : i.writes .pRegs = false) : (exec fp i inp s).pRegs = s.pRegs :=
  exec_frame fp i inp s h

theorem exec_modes (h : i.writes .modes = false) :
    (exec fp i inp s).pstateSm = s.pstateSm ∧ (exec fp i inp s).pstateZa = s.pstateZa :=
  Prod.ext_iff.mp (exec_frame fp i inp s h)

theorem exec_gprs (h : i.writes .gprs = false) :
    (exec fp i inp s).gprs = s.gprs ∧ (exec fp i inp s).sp = s.sp :=
  Prod.ext_iff.mp (exec_frame fp i inp s h)

theorem read_dram_iff (s t : State m) :
    Part.read .dram s = Part.read .dram t ↔
      s.dram = t.dram ∧ s.wbSvlVector = t.wbSvlVector ∧ s.wbBaseAddr = t.wbBaseAddr :=
  Prod.ext_iff.trans (and_congr_right' Prod.ext_iff)

/-- DRAM and the captured write stay together. -/
theorem exec_dram (h : i.writes .dram = false) :
    (exec fp i inp s).dram = s.dram ∧ (exec fp i inp s).wbSvlVector = s.wbSvlVector ∧
      (exec fp i inp s).wbBaseAddr = s.wbBaseAddr :=
  (read_dram_iff _ s).mp (exec_frame fp i inp s h)

end Parts

/-! ## Register files -/

/-- The `Ite` of every register of a full file is an update of one. -/
theorem ite_register_eq_update {k : ℕ} {β : Type*} (regs : Fin (2 ^ k) → β) (idx : BitVec k)
    (val : β) :
    (fun i : Fin (2 ^ k) => if idx = BitVec.ofNat k i then val else regs i) =
      Function.update regs ⟨idx.toNat, idx.isLt⟩ val := by
  funext i
  have hname : idx = BitVec.ofNat k i ↔ i = ⟨idx.toNat, idx.isLt⟩ := by
    rw [← BitVec.toNat_inj, BitVec.toNat_ofNat, Nat.mod_eq_of_lt i.isLt, Fin.ext_iff, eq_comm]
  simp only [Function.update_apply, hname]

theorem updateSingleVectorRegister_eq (s : State m) (zIdx : BitVec 5) (val : BitVec m.svl) :
    updateSingleVectorRegister s zIdx val =
      { s with zRegs := Function.update s.zRegs ⟨zIdx.toNat, zIdx.isLt⟩ val } := by
  rw [updateSingleVectorRegister]
  exact congrArg (fun regs => { s with zRegs := regs }) (ite_register_eq_update s.zRegs zIdx val)

theorem updateSinglePredicateRegister_eq (s : State m) (pIdx : BitVec 4)
    (val : BitVec m.pRegWidth) :
    updateSinglePredicateRegister s pIdx val =
      { s with pRegs := Function.update s.pRegs ⟨pIdx.toNat, pIdx.isLt⟩ val } := by
  rw [updateSinglePredicateRegister]
  exact congrArg (fun regs => { s with pRegs := regs }) (ite_register_eq_update s.pRegs pIdx val)

/-- The `Ite` chain with its last test: a register for 0 to 30, and for 31 what
the source puts there. -/
theorem selectChain_gpr {β : Type*} (regs : Fin 31 → β) (last : β) (idx : BitVec 5) :
    (if idx = 31 then last else Loops.selectChain (BitVec.ofNat 5) regs idx) =
      if h : idx.toNat < 31 then regs ⟨idx.toNat, h⟩ else last := by
  have hlt := idx.isLt
  by_cases h : idx.toNat < 31
  · have hne : idx ≠ 31 := by
      rintro rfl
      exact absurd h (by decide)
    rw [if_neg hne, dif_pos h, Loops.selectChain_ofNat (by decide) regs idx h]
  · have heq : idx = 31 := BitVec.eq_of_toNat_eq (show idx.toNat = 31 by omega)
    rw [if_pos heq, dif_neg h]

/-! ## Operands of an equal part -/

section Operands

variable {s t : State m}

theorem getVectorRegister_congr (h : t.zRegs = s.zRegs) :
    getVectorRegister t = getVectorRegister s := by
  unfold getVectorRegister
  rw [h]

theorem getPredicateRegister_congr (h : t.pRegs = s.pRegs) :
    getPredicateRegister t = getPredicateRegister s := by
  unfold getPredicateRegister
  rw [h]

theorem gpr_congr (h : Part.read .gprs t = Part.read .gprs s) :
    (∀ wIdx, get32BitGPR t wIdx = get32BitGPR s wIdx) ∧
      ∀ xIdx useSp, get64BitGPR t xIdx useSp = get64BitGPR s xIdx useSp := by
  rcases Prod.ext_iff.mp h with ⟨hg, hsp⟩
  simp only [Part.read] at hg hsp
  unfold get32BitGPR get64BitGPR
  rw [hg, hsp]
  exact ⟨fun _ => rfl, fun _ _ => rfl⟩

/-- The effective address depends on the two address registers only. -/
theorem typedBaseAddr_congr {inp inp' : Inputs m}
    (hrn : get64BitGPR t inp'.rn true = get64BitGPR s inp.rn true)
    (hrm : get64BitGPR t inp'.rm = get64BitGPR s inp.rm) (esize : ElementSize) :
    typedBaseAddr t inp' esize = typedBaseAddr s inp esize := by
  unfold typedBaseAddr
  rw [hrn, hrm]

end Operands

/-- Only stores write DRAM. -/
theorem writes_dram_iff (i : Instr) :
    i.writes .dram = true ↔ (∃ esize, i = .st1 esize) ∨ i = .str := by
  cases i <;> simp [Instr.writes]

/-! ## Enabled sequences -/

/-- An instruction other than a mode change is enabled as long as ZA is and,
where it needs it, streaming mode; it keeps the modes. -/
theorem path_execAll (fp : FpFunctions) {ls : List (Label m)} {s : State m}
    (hls : ∀ l ∈ ls, decode l.1 l.2 s = true ∧ l.1.writes .modes = false) :
    Path fp s ls (execAll fp ls s) := by
  induction ls generalizing s with
  | nil => exact .nil s
  | cons l ls ih =>
      have hl := hls l List.mem_cons_self
      refine .cons ⟨hl.1, rfl⟩ (ih ?_)
      intro l' hl'
      obtain ⟨hsm, hza⟩ := exec_modes fp l.2 s hl.2
      obtain ⟨hdecode, hkeeps⟩ := hls l' (List.mem_cons_of_mem l hl')
      refine ⟨?_, hkeeps⟩
      rw [← hdecode]
      unfold decode modeEnabled
      simp only [hsm, hza]

end ArmSmeIla
