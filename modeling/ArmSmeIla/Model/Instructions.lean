import ArmSmeIla.Foundation.Runs
import ArmSmeIla.Model.Combine
import ArmSmeIla.Model.Dram

/-!
# The instructions

`AddInstructions` (`instr.cc`): every instruction with its decode condition
and its updates. An ILA step reads all operands in the pre-state and updates
the listed states simultaneously; a state without an update keeps its value.
All opcodes are `TEMP_OPCODE`, so the decode of an instruction does not exclude
the others: the sequence of instructions is chosen by the user of the model.
-/

namespace ArmSmeIla

variable {m : ArmSme}

/-- Sizes of the accumulating instructions: `.S` and `.D`. -/
inductive AccSize where
  | word
  | double
deriving DecidableEq, Repr

def AccSize.toElementSize : AccSize → ElementSize
  | .word => .word
  | .double => .double

instance : Coe AccSize ElementSize := ⟨AccSize.toElementSize⟩

/-- Sizes of the SVE2 lane instructions, which have no `QUAD` support. -/
inductive LaneSize where
  | byte
  | half
  | word
  | double
deriving DecidableEq, Repr

def LaneSize.toElementSize : LaneSize → ElementSize
  | .byte => .byte
  | .half => .half
  | .word => .word
  | .double => .double

instance : Coe LaneSize ElementSize := ⟨LaneSize.toElementSize⟩

/-- The rows of `inst_list`: integer outer products. -/
inductive IntegerOuterProduct where
  | smopa
  | smops
  | sumopa
  | sumops
  | umopa
  | umops
  | usmopa
  | usmops
deriving DecidableEq, Repr

namespace IntegerOuterProduct

def subOp : IntegerOuterProduct → Bool
  | .smopa | .sumopa | .umopa | .usmopa => false
  | .smops | .sumops | .umops | .usmops => true

def op1Unsigned : IntegerOuterProduct → Bool
  | .smopa | .smops | .sumopa | .sumops => false
  | .umopa | .umops | .usmopa | .usmops => true

def op2Unsigned : IntegerOuterProduct → Bool
  | .smopa | .smops | .usmopa | .usmops => false
  | .sumopa | .sumops | .umopa | .umops => true

end IntegerOuterProduct

/-- Widening float outer products. -/
inductive WideningOuterProduct where
  | bfmopa
  | bfmops
  | fmopa
  | fmops
deriving DecidableEq, Repr

inductive Instr where
  | smstart
  | smstop
  | movaT2V (esize : ElementSize)
  | movaV2T (esize : ElementSize)
  | zero
  | addha (esize : AccSize)
  | addva (esize : AccSize)
  | integerOuterProduct (op : IntegerOuterProduct) (esize : AccSize)
  | addspl
  | addsvl
  | rdsvl
  | wideningOuterProduct (op : WideningOuterProduct)
  | fmopa (esize : AccSize)
  | fmops (esize : AccSize)
  | ld1 (esize : ElementSize)
  | st1 (esize : ElementSize)
  | ldr
  | str
  | psel (esize : LaneSize)
  | revd
  | sclamp (esize : LaneSize)
  | uclamp (esize : LaneSize)
deriving DecidableEq, Repr

/-! ## Decode -/

def tempOpcode : BitVec 32 := 0xBAD

/-- What an instruction requires of the modes. SME and SVE themselves are
taken as enabled. -/
def modeEnabled (i : Instr) (s : State m) : Bool :=
  match i with
  | .smstart | .smstop => true
  | .movaT2V _ | .movaV2T _ | .addha _ | .addva _ | .integerOuterProduct _ _
  | .wideningOuterProduct _ | .fmopa _ | .fmops _ | .ld1 _ | .st1 _ => s.pstateSm && s.pstateZa
  | .zero | .ldr | .str => s.pstateZa
  | .addspl | .addsvl | .rdsvl => true
  | .psel _ | .revd | .sclamp _ | .uclamp _ => true

def decode (i : Instr) (inp : Inputs m) (s : State m) : Bool :=
  modeEnabled i s && inp.cmd == tempOpcode

/-! ## Operands -/

/-- The immediate of the typed slice instructions, zero for `.Q`. -/
def sliceImm (inp : Inputs m) : ElementSize → (w : ℕ) × BitVec w
  | .byte => ⟨4, inp.imm4⟩
  | .half => ⟨3, inp.imm3⟩
  | .word => ⟨2, inp.imm2⟩
  | .double => ⟨1, inp.imm1⟩
  | .quad => ⟨1, 0#1⟩

/-- `BaseRegPlusImm(Get32BitGPR(Rs), imm)`. -/
def sliceIdx (s : State m) (inp : Inputs m) (esize : ElementSize) :
    BitVec (max 32 (sliceImm inp esize).1) :=
  baseRegPlusImm (get32BitGPR s inp.rs) (sliceImm inp esize).2

section Semantics

variable (s : State m) (inp : Inputs m)

/-! ## Modes -/

/-- Zeroes out the vector and predicate registers. -/
def resetSVEState : State m :=
  { s with zRegs := fun _ => 0, pRegs := fun _ => 0 }

def smstart : State m :=
  { resetSVEState s with pstateSm := true, pstateZa := true, za := resetSMEState s.za }

def smstop : State m :=
  { resetSVEState s with pstateSm := false, pstateZa := false }

/-! ## Moves and ZERO -/

def movaT2V (esize : ElementSize) : State m :=
  let tileIdx := toConstrainedTileIndex inp.zan esize
  let source := getTypedSlice s.za inp.hv tileIdx (sliceIdx s inp esize) esize
  let dest := getVectorRegister s inp.zd
  let masked := maskWithSinglePredicate source dest esize (getPredicateRegister s inp.pg)
  updateSingleVectorRegister s inp.zd masked

def movaV2T (esize : ElementSize) : State m :=
  let tileIdx := toConstrainedTileIndex inp.zad esize
  let source := getVectorRegister s inp.zn
  let dest := getTypedSlice s.za inp.hv tileIdx (sliceIdx s inp esize) esize
  let masked := maskWithSinglePredicate source dest esize (getPredicateRegister s inp.pg)
  { s with
    za := updateSingleTypedSlice s.za inp.hv tileIdx (sliceIdx s inp esize) esize masked }

/-- One iteration of the inner loop of `ZERO`: zero out slice `row_idx` of the
64-bit tile. -/
def zeroRow (tileIdx : ℕ) (za : ZaMem m) (rowIdx : ℕ) : ZaMem m :=
  setTypedHorizontalSlice za (BitVec.ofNat m.zaAddrWidth rowIdx)
    (BitVec.ofNat m.zaAddrWidth tileIdx) .double 0

/-- One iteration of the outer loop: only apply zeroing if the tile bit is
activated. -/
def zeroTile (imm8 : BitVec 8) (newZa : ZaMem m) (tileIdx : ℕ) : ZaMem m :=
  if isActivated imm8 tileIdx 8 then (List.range 8).foldl (zeroRow tileIdx) newZa else newZa

def zero : State m :=
  { s with za := (List.range 8).foldl (zeroTile inp.imm8) s.za }

/-! ## Accumulating instructions -/

def addha (esize : ElementSize) : State m :=
  { s with
    za := combineTileWithHorizontalVector s.za (toConstrainedTileIndex inp.zada esize)
      (getVectorRegister s inp.zn) (getPredicateRegister s inp.pn)
      (getPredicateRegister s inp.pm) esize false (fun a b => a + b) }

def addva (esize : ElementSize) : State m :=
  { s with
    za := combineTileWithVerticalVector s.za (toConstrainedTileIndex inp.zada esize)
      (getVectorRegister s inp.zn) (getPredicateRegister s inp.pn)
      (getPredicateRegister s inp.pm) esize false (fun a b => a + b) }

def integerOuterProduct (op : IntegerOuterProduct) (esize : ElementSize) : State m :=
  { s with
    za := integerCombineTileWithMatrices s.za (toConstrainedTileIndex inp.zada esize)
      (getVectorRegister s inp.zn) (getVectorRegister s inp.zm)
      (getPredicateRegister s inp.pn) (getPredicateRegister s inp.pm) esize op.subOp
      op.op1Unsigned op.op2Unsigned }

/-- K = 2, from half to single precision. -/
def floatK2 (subOp : Bool) (negFn : BitVec 16 → BitVec 16)
    (dotaddFn : BitVec 32 → BitVec 16 → BitVec 16 → BitVec 16 → BitVec 16 → BitVec 32) :
    State m :=
  { s with
    za := floatCombineTileWithMatricesK2 s.za (toConstrainedTileIndex inp.zada .word)
      (getVectorRegister s inp.zn) (getVectorRegister s inp.zm)
      (getPredicateRegister s inp.pn) (getPredicateRegister s inp.pm) .word .half subOp
      (0 : BitVec 16) negFn dotaddFn }

def wideningOuterProduct (fp : FpFunctions) : WideningOuterProduct → State m
  | .bfmopa => floatK2 s inp false fp.bfneg16 fp.bfdotadd16to32
  | .bfmops => floatK2 s inp true fp.bfneg16 fp.bfdotadd16to32
  | .fmopa => floatK2 s inp false fp.fpneg16 fp.fpdotadd16to32
  | .fmops => floatK2 s inp true fp.fpneg16 fp.fpdotadd16to32

/-- K = 1, one precision. -/
def floatK1 (esize : ElementSize) (subOp : Bool) (negFn : BitVec esize.bits → BitVec esize.bits)
    (fmacFn : BitVec esize.bits → BitVec esize.bits → BitVec esize.bits → BitVec esize.bits) :
    State m :=
  { s with
    za := floatCombineTileWithMatricesK1 s.za (toConstrainedTileIndex inp.zada esize)
      (getVectorRegister s inp.zn) (getVectorRegister s inp.zm)
      (getPredicateRegister s inp.pn) (getPredicateRegister s inp.pm) esize subOp negFn fmacFn }

def fmopa (fp : FpFunctions) : AccSize → State m
  | .word => floatK1 s inp .word false fp.fpneg32 fp.fpmac32
  | .double => floatK1 s inp .double false fp.fpneg64 fp.fpmac64

def fmops (fp : FpFunctions) : AccSize → State m
  | .word => floatK1 s inp .word true fp.fpneg32 fp.fpmac32
  | .double => floatK1 s inp .double true fp.fpneg64 fp.fpmac64

/-! ## Streaming vector length arithmetic -/

def addspl : State m :=
  let val := BitVec.ofNat 64 (m.pRegWidth / 8) * inp.imm6.signExtend 64 + get64BitGPR s inp.rn true
  updateSingle64BitGPR s inp.rd val true

def addsvl : State m :=
  let val := BitVec.ofNat 64 (m.svl / 8) * inp.imm6.signExtend 64 + get64BitGPR s inp.rn true
  updateSingle64BitGPR s inp.rd val true

/-- No `SP` support for this instruction. -/
def rdsvl : State m :=
  let val := BitVec.ofNat 64 (m.svl / 8) * inp.imm6.signExtend 64
  updateSingle64BitGPR s inp.rd val

/-! ## Loads and stores -/

/-- `SP` is not a multiple of 16. -/
def misalignedSp : Bool := s.sp.extractLsb' 0 4 != 0#4

/-- The fault check shared by `LD1` and `ST1`. -/
def typedFaults (esize : ElementSize) : BitVec 8 :=
  let anyActive := isAnyPredActive (getPredicateRegister s inp.pg) esize
  let isSp := inp.rn == 31
  if anyActive != 0#1 && isSp && misalignedSp s then s.faults + 1 else s.faults

/-- The effective address of `LoadLogic` and `StoreLogic`. -/
def typedBaseAddr (esize : ElementSize) : BitVec 128 :=
  let base := get64BitGPR s inp.rn true
  let offset := get64BitGPR s inp.rm
  base.setWidth 128 + offset.setWidth 128 * BitVec.ofNat 128 (esize.bits / 8)

def ld1 (esize : ElementSize) : State m :=
  let tileIdx := toConstrainedTileIndex inp.zat esize
  let mask := getPredicateRegister s inp.pg
  let dramVectorAsZaEndian := dramGetVectorAsZaEndian m s.dram (typedBaseAddr s inp esize) esize
  let masked := maskWithSinglePredicate dramVectorAsZaEndian 0 esize mask true
  { s with
    faults := typedFaults s inp esize
    za := updateSingleTypedSlice s.za inp.hv tileIdx (sliceIdx s inp esize) esize masked }

def st1 (esize : ElementSize) : State m :=
  let tileIdx := toConstrainedTileIndex inp.zat esize
  let mask := getPredicateRegister s inp.pg
  let baseAddr := typedBaseAddr s inp esize
  let sourceVector := getTypedSlice s.za inp.hv tileIdx (sliceIdx s inp esize) esize
  let oldDramVectorAsZaEndian := dramGetVectorAsZaEndian m s.dram baseAddr esize
  let resultVector := maskWithSinglePredicate sourceVector oldDramVectorAsZaEndian esize mask
  { dramSetVectorAsDramEndian s baseAddr resultVector esize true with
    faults := typedFaults s inp esize }

/-- The ZA row of `LDR` and `STR`. -/
def arrayRow : BitVec (Nat.log2 m.svlB) :=
  (baseRegPlusImm (get32BitGPR s inp.rv) inp.imm4).extractLsb' 0 (Nat.log2 m.svlB)

/-- The effective address of `LDR` and `STR`: skips `Imm4` rows. -/
def arrayAddr : BitVec 128 :=
  let base := get64BitGPR s inp.rn true
  let offset := inp.imm4.setWidth 128 * BitVec.ofNat 128 m.svlB
  base.setWidth 128 + offset

/-- The fault check shared by `LDR` and `STR`, on `SP` and on the address. -/
def arrayFaults : BitVec 8 :=
  let isSp := inp.rn == 31
  let misalignedAddr := (arrayAddr s inp).extractLsb' 0 4 != 0#4
  if (isSp && misalignedSp s) || misalignedAddr then s.faults + 1 else s.faults

/-- No endian conversion. -/
def ldr : State m :=
  let result := dramGetVectorAsZaEndian m s.dram (arrayAddr s inp) .byte false
  { s with
    faults := arrayFaults s inp
    za := setTypedHorizontalSlice s.za (arrayRow s inp) (BitVec.ofNat m.zaAddrWidth 0) .byte
      result }

/-- No endian conversion. -/
def str : State m :=
  let source :=
    getTypedHorizontalSlice s.za (arrayRow s inp) (BitVec.ofNat m.zaAddrWidth 0) .byte
  { dramSetVectorAsDramEndian s (arrayAddr s inp) source .byte false with
    faults := arrayFaults s inp }

/-! ## SVE2 -/

/-- The immediate of `PSEL`. -/
def pselImm : LaneSize → (w : ℕ) × BitVec w
  | .byte => ⟨4, inp.imm4⟩
  | .half => ⟨3, inp.imm3⟩
  | .word => ⟨2, inp.imm2⟩
  | .double => ⟨1, inp.imm1⟩

def psel (esize : LaneSize) : State m :=
  let operand1 := getPredicateRegister s inp.pn
  let operand2 := getPredicateRegister s inp.pm
  let elements := m.dim esize
  let beforeModulo := baseRegPlusImm (get32BitGPR s inp.rv) (pselImm inp esize).2
  let wrappedIndex := beforeModulo.extractLsb' 0 (Nat.log2 elements)
  let isActive := getPredBitFromLSBAt operand2 wrappedIndex esize != 0#1
  let result := if isActive then operand1 else 0
  updateSinglePredicateRegister s inp.pd result

/-- Swaps the 64-bit halves of the active quadwords. -/
def revd : State m :=
  let mask := getPredicateRegister s inp.pg
  let operand := getVectorRegister s inp.zn
  let oldDest := getVectorRegister s inp.zd
  let result : BitVec m.svl := concatenateFromLSB (m.dim_mul_bits .quad) fun i =>
    let srcElem := getElementInVectorFromLSB operand i 128
    let highHalf := getElementInVectorFromLSB srcElem 1 64
    let lowHalf := getElementInVectorFromLSB srcElem 0 64
    let reversed : BitVec 128 := lowHalf ++ highHalf
    let oldDestElem := getElementInVectorFromLSB oldDest i 128
    if isActivated mask i 128 then reversed else oldDestElem
  updateSingleVectorRegister s inp.zd result

def umax {w : ℕ} (a b : BitVec w) : BitVec w := if b.ult a then a else b
def umin {w : ℕ} (a b : BitVec w) : BitVec w := if a.ult b then a else b
def smax {w : ℕ} (a b : BitVec w) : BitVec w := if b.slt a then a else b
def smin {w : ℕ} (a b : BitVec w) : BitVec w := if a.slt b then a else b

/-- `SCLAMP` and `UCLAMP`; the two swap the arguments of the maximum. -/
def clamp (esize : ElementSize) (isSigned : Bool) : State m :=
  let minOp := getVectorRegister s inp.zn
  let maxOp := getVectorRegister s inp.zm
  let destOld := getVectorRegister s inp.zd
  let result : BitVec m.svl := concatenateFromLSB (m.dim_mul_bits esize) fun i =>
    let minElem := getElementInVectorFromLSB minOp i esize.bits
    let maxElem := getElementInVectorFromLSB maxOp i esize.bits
    let elem := getElementInVectorFromLSB destOld i esize.bits
    if isSigned then smin (smax minElem elem) maxElem else umin (umax elem minElem) maxElem
  updateSingleVectorRegister s inp.zd result

end Semantics

/-! ## Steps and runs -/

/-- The updates of an instruction. -/
def exec (fp : FpFunctions) (i : Instr) (inp : Inputs m) (s : State m) : State m :=
  match i with
  | .smstart => smstart s
  | .smstop => smstop s
  | .movaT2V esize => movaT2V s inp esize
  | .movaV2T esize => movaV2T s inp esize
  | .zero => zero s inp
  | .addha esize => addha s inp esize
  | .addva esize => addva s inp esize
  | .integerOuterProduct op esize => integerOuterProduct s inp op esize
  | .addspl => addspl s inp
  | .addsvl => addsvl s inp
  | .rdsvl => rdsvl s inp
  | .wideningOuterProduct op => wideningOuterProduct s inp fp op
  | .fmopa esize => fmopa s inp fp esize
  | .fmops esize => fmops s inp fp esize
  | .ld1 esize => ld1 s inp esize
  | .st1 esize => st1 s inp esize
  | .ldr => ldr s inp
  | .str => str s inp
  | .psel esize => psel s inp esize
  | .revd => revd s inp
  | .sclamp esize => clamp s inp esize true
  | .uclamp esize => clamp s inp esize false

/-- A label: an instruction with the inputs of its step. -/
abbrev Label (m : ArmSme) : Type := Instr × Inputs m

/-- One unrolled step: the decode holds and the states are updated. -/
def Step (fp : FpFunctions) (s : State m) (l : Label m) (s' : State m) : Prop :=
  decode l.1 l.2 s = true ∧ s' = exec fp l.1 l.2 s

/-- A path of `UnrollPathConn`. -/
abbrev Path (fp : FpFunctions) : State m → List (Label m) → State m → Prop :=
  Runs (Step fp)

/-- The updates of a sequence of instructions, without the decode conditions. -/
def execAll (fp : FpFunctions) (ls : List (Label m)) (s : State m) : State m :=
  ls.foldl (fun s l => exec fp l.1 l.2 s) s

/-- Paths are deterministic. -/
theorem eq_execAll_of_path {fp : FpFunctions} {s t : State m} {ls : List (Label m)}
    (run : Path fp s ls t) : t = execAll fp ls s := by
  induction run with
  | nil => rfl
  | cons h _ ih =>
      obtain ⟨_, rfl⟩ := h
      exact ih

end ArmSmeIla
