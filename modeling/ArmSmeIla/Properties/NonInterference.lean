import ArmSmeIla.Views.Footprints
import ArmSmeIla.Views.Predication

/-!
# Inactive elements do not influence results

Two executions of one predicated instruction, on the same inputs. If they
agree on the destination, on the address registers, on the governing bits of
the predicates and on the active elements of the sources, then nothing they
write can tell them apart.
-/

namespace ArmSmeIla

open Packing

variable {m : ArmSme}

/-! ## Agreement -/

/-- A source operand under its predicate: equal governing bits, equal active
elements. -/
structure SameSource (g : ℕ) (p p' : BitVec m.pRegWidth) (v v' : BitVec m.svl) : Prop where
  predicate : SamePredicate g p p'
  elements : SameActive g p v v'

/-- The slice that a selector, `HV`, `Rs` and the immediate name. -/
def sliceOperand (s : State m) (inp : Inputs m) (selector : BitVec m.log2SvlB)
    (esize : ElementSize) : BitVec m.svl :=
  getTypedSlice s.za inp.hv (toConstrainedTileIndex selector esize) (sliceIdx s inp esize) esize

section Agreement

variable (inp : Inputs m) (s s' : State m)

/-- The sources of an outer product: `Zn` under `Pn`, `Zm` under `Pm`. -/
structure SameOuterSources (g : ℕ) : Prop where
  rows : SameSource g (getPredicateRegister s inp.pn) (getPredicateRegister s' inp.pn)
    (getVectorRegister s inp.zn) (getVectorRegister s' inp.zn)
  cols : SameSource g (getPredicateRegister s inp.pm) (getPredicateRegister s' inp.pm)
    (getVectorRegister s inp.zm) (getVectorRegister s' inp.zm)

/-- The address registers of `LD1` and `ST1`. -/
structure SameAddresses : Prop where
  rs : get32BitGPR s inp.rs = get32BitGPR s' inp.rs
  rn : get64BitGPR s inp.rn true = get64BitGPR s' inp.rn true
  rm : get64BitGPR s inp.rm = get64BitGPR s' inp.rm

/-- Agreement on a predicated instruction. Destinations agree as a whole,
since an inactive element of theirs is kept. -/
def Agree (i : Instr) : Prop :=
  let pg := getPredicateRegister s inp.pg
  let pg' := getPredicateRegister s' inp.pg
  let pn := getPredicateRegister s inp.pn
  let pn' := getPredicateRegister s' inp.pn
  let pm := getPredicateRegister s inp.pm
  let pm' := getPredicateRegister s' inp.pm
  let zn := getVectorRegister s inp.zn
  let zn' := getVectorRegister s' inp.zn
  let sameTile (esize : ElementSize) : Prop :=
    tiles esize s.za (tileOf esize inp.zada) = tiles esize s'.za (tileOf esize inp.zada)
  let sameZd : Prop := getVectorRegister s inp.zd = getVectorRegister s' inp.zd
  match i with
  | .movaT2V esize =>
      get32BitGPR s inp.rs = get32BitGPR s' inp.rs ∧
      SameSource esize.bits pg pg' (sliceOperand s inp inp.zan esize)
        (sliceOperand s' inp inp.zan esize) ∧ sameZd
  | .movaV2T esize =>
      get32BitGPR s inp.rs = get32BitGPR s' inp.rs ∧
      SameSource esize.bits pg pg' zn zn' ∧
      sliceOperand s inp inp.zad esize = sliceOperand s' inp inp.zad esize
  -- the vector of `ADDHA` is added along the columns, that of `ADDVA` along the rows
  | .addha esize =>
      SamePredicate (esize : ElementSize).bits pn pn' ∧
      SameSource (esize : ElementSize).bits pm pm' zn zn' ∧ sameTile esize
  | .addva esize =>
      SameSource (esize : ElementSize).bits pn pn' zn zn' ∧
      SamePredicate (esize : ElementSize).bits pm pm' ∧ sameTile esize
  | .integerOuterProduct _ esize =>
      SameOuterSources inp s s' ((esize : ElementSize).bits / 4) ∧ sameTile esize
  | .wideningOuterProduct _ => SameOuterSources inp s s' 16 ∧ sameTile .word
  | .fmopa esize | .fmops esize =>
      SameOuterSources inp s s' (esize : ElementSize).bits ∧ sameTile esize
  | .ld1 esize =>
      SameAddresses inp s s' ∧ SamePredicate esize.bits pg pg' ∧
      SameMemory m esize pg (typedBaseAddr s inp esize) s.dram s'.dram ∧
      sliceOperand s inp inp.zat esize = sliceOperand s' inp inp.zat esize
  | .st1 esize =>
      SameAddresses inp s s' ∧
      SameSource esize.bits pg pg' (sliceOperand s inp inp.zat esize)
        (sliceOperand s' inp inp.zat esize) ∧
      ∀ addr, InBlock m (typedBaseAddr s inp esize) addr → s.dram addr = s'.dram addr
  | .revd => SameSource 128 pg pg' zn zn' ∧ sameZd
  -- no predicated operands
  | _ => False

/-- Two results are the same wherever the states were, and so at the
destination; what a store captures is the same in any case. -/
structure SameResult (i : Instr) (t t' : State m) : Prop where
  za : ∀ addr, s.za addr = s'.za addr → t.za addr = t'.za addr
  zRegs : ∀ zIdx, s.zRegs zIdx = s'.zRegs zIdx → t.zRegs zIdx = t'.zRegs zIdx
  dram : ∀ addr, s.dram addr = s'.dram addr → t.dram addr = t'.dram addr
  faults : s.faults = s'.faults → t.faults = t'.faults
  captured : i.writes .dram = true ∨ s.wbSvlVector = s'.wbSvlVector →
    t.wbSvlVector = t'.wbSvlVector

end Agreement

/-! ## Part by part -/

section Parts

variable {inp : Inputs m} {s s' : State m}

theorem sliceIdx_same (hrs : get32BitGPR s inp.rs = get32BitGPR s' inp.rs)
    (esize : ElementSize) : sliceIdx s inp esize = sliceIdx s' inp esize := by
  unfold sliceIdx
  rw [hrs]

/-- `SP` matters for the fault check only where it is the base register. -/
theorem typedFaults_same (h : SameAddresses inp s s') {esize : ElementSize}
    (hp : SamePredicate esize.bits (getPredicateRegister s inp.pg)
      (getPredicateRegister s' inp.pg)) (hfaults : s.faults = s'.faults) :
    typedFaults s inp esize = typedFaults s' inp esize := by
  have hsp : (inp.rn == 31 && misalignedSp s) = (inp.rn == 31 && misalignedSp s') := by
    by_cases hrn : inp.rn = 31
    · have hbase := h.rn
      simp only [get64BitGPR, if_true, if_pos hrn] at hbase
      unfold misalignedSp
      rw [hbase]
    · rw [beq_false_of_ne hrn, Bool.false_and, Bool.false_and]
  unfold typedFaults
  simp only [Bool.and_assoc, isAnyPredActive_same hp, hsp, hfaults]

section Za

variable (fp : FpFunctions) {addr : BitVec m.zaAddrWidth} (hza : s.za addr = s'.za addr)

include hza

theorem movaV2T_same {esize : ElementSize} (h : Agree inp s s' (.movaV2T esize)) :
    (movaV2T s inp esize).za addr = (movaV2T s' inp esize).za addr := by
  rcases h with ⟨hrs, hsource, hdest⟩
  show updateSingleTypedSlice s.za inp.hv _ (sliceIdx s inp esize) esize
      (maskWithSinglePredicate _ (sliceOperand s inp inp.zad esize) esize _) addr =
    updateSingleTypedSlice s'.za inp.hv _ (sliceIdx s' inp esize) esize
      (maskWithSinglePredicate _ (sliceOperand s' inp inp.zad esize) esize _) addr
  rw [maskWithSinglePredicate_same hsource.predicate hsource.elements (Or.inr hdest),
    sliceIdx_same hrs]
  exact updateSingleTypedSlice_same (toConstrainedTileIndex_toNat inp.zad esize) _ _ _ hza

theorem ld1_same {esize : ElementSize} (h : Agree inp s s' (.ld1 esize)) :
    (ld1 s inp esize).za addr = (ld1 s' inp esize).za addr := by
  rcases h with ⟨haddr, hp, hmem, _⟩
  show updateSingleTypedSlice s.za inp.hv _ (sliceIdx s inp esize) esize
      (maskWithSinglePredicate (dramGetVectorAsZaEndian m s.dram (typedBaseAddr s inp esize) esize)
        0 esize _ true) addr =
    updateSingleTypedSlice s'.za inp.hv _ (sliceIdx s' inp esize) esize
      (maskWithSinglePredicate
        (dramGetVectorAsZaEndian m s'.dram (typedBaseAddr s' inp esize) esize) 0 esize _ true) addr
  rw [← typedBaseAddr_congr haddr.rn haddr.rm esize, ← sliceIdx_same haddr.rs,
    maskWithSinglePredicate_same hp (dramGetVector_same hmem true) (Or.inl rfl)]
  exact updateSingleTypedSlice_same (toConstrainedTileIndex_toNat inp.zat esize) _ _ _ hza

theorem floatK2_same (hsources : SameOuterSources inp s s' 16)
    (htile : tiles .word s.za (tileOf .word inp.zada) = tiles .word s'.za (tileOf .word inp.zada))
    (subOp : Bool) (negFn : BitVec 16 → BitVec 16)
    (dotaddFn : BitVec 32 → BitVec 16 → BitVec 16 → BitVec 16 → BitVec 16 → BitVec 32) :
    (floatK2 s inp subOp negFn dotaddFn).za addr =
      (floatK2 s' inp subOp negFn dotaddFn).za addr := by
  have hhalf : ElementSize.half.bits = ElementSize.word.bits / 2 := rfl
  exact floatCombineTileWithMatricesK2_same (toConstrainedTileIndex_toNat inp.zada .word) htile
    hza hhalf (by decide) hsources.rows.predicate hsources.cols.predicate hsources.rows.elements
    hsources.cols.elements subOp _ negFn dotaddFn

theorem floatK1_same {esize : ElementSize} (hsources : SameOuterSources inp s s' esize.bits)
    (htile : tiles esize s.za (tileOf esize inp.zada) = tiles esize s'.za (tileOf esize inp.zada))
    (subOp : Bool) (negFn : BitVec esize.bits → BitVec esize.bits)
    (fmacFn : BitVec esize.bits → BitVec esize.bits → BitVec esize.bits → BitVec esize.bits) :
    (floatK1 s inp esize subOp negFn fmacFn).za addr =
      (floatK1 s' inp esize subOp negFn fmacFn).za addr :=
  floatCombineTileWithMatricesK1_same (toConstrainedTileIndex_toNat inp.zada esize) htile hza
    hsources.rows.predicate hsources.cols.predicate hsources.rows.elements hsources.cols.elements
    subOp negFn fmacFn

theorem exec_za_same {i : Instr} (h : Agree inp s s' i) :
    (exec fp i inp s).za addr = (exec fp i inp s').za addr := by
  cases i with
  | movaV2T esize => exact movaV2T_same hza h
  | addha esize =>
      rcases h with ⟨hpn, hcols, htile⟩
      exact combineTileWithHorizontalVector_same (toConstrainedTileIndex_toNat inp.zada esize)
        htile hza hpn hcols.predicate hcols.elements false _
  | addva esize =>
      rcases h with ⟨hrows, hpm, htile⟩
      exact combineTileWithVerticalVector_same (toConstrainedTileIndex_toNat inp.zada esize)
        htile hza hrows.predicate hpm hrows.elements false _
  | integerOuterProduct op esize =>
      rcases h with ⟨hsources, htile⟩
      have hquarter : 4 ∣ (esize : ElementSize).bits := by cases esize <;> decide
      exact integerCombineTileWithMatrices_same (toConstrainedTileIndex_toNat inp.zada esize)
        htile hza hquarter hsources.rows.predicate hsources.cols.predicate
        hsources.rows.elements hsources.cols.elements op.subOp op.op1Unsigned op.op2Unsigned
  | wideningOuterProduct op =>
      rcases h with ⟨hsources, htile⟩
      cases op <;> exact floatK2_same hza hsources htile ..
  | fmopa esize =>
      rcases h with ⟨hsources, htile⟩
      cases esize <;> exact floatK1_same hza hsources htile ..
  | fmops esize =>
      rcases h with ⟨hsources, htile⟩
      cases esize <;> exact floatK1_same hza hsources htile ..
  | ld1 esize => exact ld1_same hza h
  | movaT2V esize => exact hza
  | st1 esize => exact hza
  | revd => exact hza
  | _ => exact absurd h id

end Za

section ZRegs

variable {zIdx : Fin 32} (hz : s.zRegs zIdx = s'.zRegs zIdx)

include hz

theorem updateSingleVectorRegister_same (zd : BitVec 5) {val val' : BitVec m.svl}
    (hval : val = val') :
    (updateSingleVectorRegister s zd val).zRegs zIdx =
      (updateSingleVectorRegister s' zd val').zRegs zIdx := by
  unfold updateSingleVectorRegister
  simp only [hval, hz]

theorem movaT2V_same {esize : ElementSize} (h : Agree inp s s' (.movaT2V esize)) :
    (movaT2V s inp esize).zRegs zIdx = (movaT2V s' inp esize).zRegs zIdx := by
  rcases h with ⟨_, hsource, hdest⟩
  exact updateSingleVectorRegister_same hz inp.zd
    (maskWithSinglePredicate_same hsource.predicate hsource.elements (Or.inr hdest))

theorem revd_same (h : Agree inp s s' .revd) :
    (revd s inp).zRegs zIdx = (revd s' inp).zRegs zIdx := by
  rcases h with ⟨hsource, hdest⟩
  apply updateSingleVectorRegister_same hz inp.zd
  apply lanes_injective .quad
  rw [lanes_concatenateFromLSB, lanes_concatenateFromLSB]
  funext i
  have hbit := hsource.predicate i i.isLt
  simp only [isActivated_eq, getElementInVectorFromLSB_eq, ← hbit, hdest]
  refine ite_congr rfl (fun h => ?_) fun _ => rfl
  exact congrArg (fun x : BitVec 128 => elem x 0 64 ++ elem x 1 64)
    (hsource.elements i i.isLt h)

theorem exec_zRegs_same (fp : FpFunctions) {i : Instr} (h : Agree inp s s' i) :
    (exec fp i inp s).zRegs zIdx = (exec fp i inp s').zRegs zIdx := by
  cases i with
  | movaT2V esize => exact movaT2V_same hz h
  | revd => exact revd_same hz h
  | wideningOuterProduct op => cases op <;> exact hz
  | fmopa esize => cases esize <;> exact hz
  | fmops esize => cases esize <;> exact hz
  | movaV2T esize | addha esize | addva esize | integerOuterProduct op esize | ld1 esize
  | st1 esize => exact hz
  | _ => exact absurd h id

end ZRegs

/-- Both executions of a store write one vector to one place: an inactive
element is the one that was read from there. -/
theorem st1_vector_same {esize : ElementSize} (h : Agree inp s s' (.st1 esize)) :
    ∃ (base : BitVec 128) (vector : BitVec m.svl),
      st1 s inp esize = { dramSetVectorAsDramEndian s base vector esize true with
        faults := typedFaults s inp esize } ∧
      st1 s' inp esize = { dramSetVectorAsDramEndian s' base vector esize true with
        faults := typedFaults s' inp esize } := by
  rcases h with ⟨haddr, hsource, hdest⟩
  have hold := dramGetVector_congr (typedBaseAddr s inp esize) esize true hdest
  have hvector := maskWithSinglePredicate_same hsource.predicate hsource.elements
    (Or.inr hold : false = true ∨ _)
  have hs' : st1 s' inp esize =
      { dramSetVectorAsDramEndian s' (typedBaseAddr s' inp esize)
          (maskWithSinglePredicate (sliceOperand s' inp inp.zat esize)
            (dramGetVectorAsZaEndian m s'.dram (typedBaseAddr s' inp esize) esize) esize
            (getPredicateRegister s' inp.pg)) esize true with
        faults := typedFaults s' inp esize } := rfl
  rw [← typedBaseAddr_congr haddr.rn haddr.rm esize, ← hvector] at hs'
  exact ⟨typedBaseAddr s inp esize, _, rfl, hs'⟩

theorem exec_dram_same (fp : FpFunctions) {i : Instr} (h : Agree inp s s' i) {addr : BitVec 128}
    (hdram : s.dram addr = s'.dram addr) :
    (exec fp i inp s).dram addr = (exec fp i inp s').dram addr := by
  by_cases hwrites : i.writes .dram
  · rcases (writes_dram_iff i).mp hwrites with ⟨esize, rfl⟩ | rfl
    · rcases st1_vector_same h with ⟨base, vector, hs, hs'⟩
      show (st1 s inp esize).dram addr = (st1 s' inp esize).dram addr
      rw [hs, hs']
      exact dramSetVector_same s s' base vector true hdram
    · exact absurd h id
  · rw [Bool.not_eq_true] at hwrites
    rw [(exec_dram fp inp s hwrites).1, (exec_dram fp inp s' hwrites).1, hdram]

theorem exec_captured_same (fp : FpFunctions) {i : Instr} (h : Agree inp s s' i)
    (hcaptured : i.writes .dram = true ∨ s.wbSvlVector = s'.wbSvlVector) :
    (exec fp i inp s).wbSvlVector = (exec fp i inp s').wbSvlVector := by
  by_cases hwrites : i.writes .dram
  · rcases (writes_dram_iff i).mp hwrites with ⟨esize, rfl⟩ | rfl
    · rcases st1_vector_same h with ⟨base, vector, hs, hs'⟩
      show (st1 s inp esize).wbSvlVector = (st1 s' inp esize).wbSvlVector
      rw [hs, hs']
      exact wbSvlVector_same s s' base vector true
    · exact absurd h id
  · have hkept := hcaptured.resolve_left hwrites
    rw [Bool.not_eq_true] at hwrites
    rw [(exec_dram fp inp s hwrites).2.1, (exec_dram fp inp s' hwrites).2.1, hkept]

theorem exec_faults_same (fp : FpFunctions) {i : Instr} (h : Agree inp s s' i)
    (hfaults : s.faults = s'.faults) :
    (exec fp i inp s).faults = (exec fp i inp s').faults := by
  cases i with
  | ld1 esize =>
      rcases h with ⟨haddr, hp, _⟩
      exact typedFaults_same haddr hp hfaults
  | st1 esize =>
      rcases h with ⟨haddr, hsource, _⟩
      exact typedFaults_same haddr hsource.predicate hfaults
  | wideningOuterProduct op => cases op <;> exact hfaults
  | fmopa esize => cases esize <;> exact hfaults
  | fmops esize => cases esize <;> exact hfaults
  | movaT2V esize | movaV2T esize | addha esize | addva esize | integerOuterProduct op esize
  | revd => exact hfaults
  | _ => exact absurd h id

end Parts

/-- Executions of a predicated instruction that agree on everything but
inactive elements and other predicate bits write the same values. -/
theorem inactive_noninterference (fp : FpFunctions) (i : Instr) (inp : Inputs m)
    (s s' : State m) (h : Agree inp s s' i) :
    SameResult s s' i (exec fp i inp s) (exec fp i inp s') where
  za _ hza := exec_za_same fp hza h
  zRegs _ hz := exec_zRegs_same hz fp h
  dram _ hdram := exec_dram_same fp h hdram
  faults := exec_faults_same fp h
  captured := exec_captured_same fp h

/-- Two half-precision elements are active; odd predicate bits and the other
elements differ. Integer arithmetic stands in for the float functions. -/
theorem inactive_noninterference_fmops :
    let fp : FpFunctions :=
      { (default : FpFunctions) with
        fpneg16 := fun x => x ^^^ 0x8000
        fpdotadd16to32 := fun acc a0 a1 b0 b1 =>
          acc + a0.setWidth 32 * b0.setWidth 32 + a1.setWidth 32 * b1.setWidth 32 }
    let inp : Inputs smeDramLE := { (default : Inputs smeDramLE) with zada := 6, zm := 1 }
    let s : State smeDramLE :=
      { (default : State smeDramLE) with pRegs := fun _ => 0x5, zRegs := fun _ => 0x3C004000 }
    let s' : State smeDramLE :=
      { (default : State smeDramLE) with
        pRegs := fun _ => 0xF, zRegs := fun i => 0x3C004000 + i.val * 0x100000000 }
    (exec fp (.wideningOuterProduct .fmops) inp s).za =
        (exec fp (.wideningOuterProduct .fmops) inp s').za ∧
      (exec fp (.wideningOuterProduct .fmops) inp s).za 44 = 0x5C := by
  intro fp inp s s'
  have hpred : ∀ i < 8, (0x5 : BitVec 16).getLsbD (i * 2) = (0xF : BitVec 16).getLsbD (i * 2) := by
    decide
  have hactive : ∀ k : Fin 32, ∀ i < 8, (0x5 : BitVec 16).getLsbD (i * 2) = true →
      elem (0x3C004000 : BitVec 128) i 16 =
        elem (0x3C004000 + k.val * 0x100000000 : BitVec 128) i 16 := by
    decide
  have hsource : ∀ (pIdx : BitVec 4) (zIdx : BitVec 5), SameSource 16
      (getPredicateRegister s pIdx) (getPredicateRegister s' pIdx)
      (getVectorRegister s zIdx) (getVectorRegister s' zIdx) := by
    intro pIdx zIdx
    rw [getPredicateRegister_eq, getPredicateRegister_eq, getVectorRegister_eq,
      getVectorRegister_eq]
    exact ⟨hpred, hactive _⟩
  constructor
  · funext addr
    exact (inactive_noninterference fp (.wideningOuterProduct .fmops) inp s s'
      ⟨⟨hsource inp.pn inp.zn, hsource inp.pm inp.zm⟩, rfl⟩).za addr rfl
  · decide

end ArmSmeIla
