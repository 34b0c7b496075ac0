import ArmSmeIla.Model.Vectors

/-!
# Register helpers beyond those of the instructions

The update of a W register, which no instruction of the model needs yet, the
public readers that take a `size_t` (`arm.cc`), and the calls that write
registers.
-/

namespace ArmSmeIla

variable {m : ArmSme} (s : State m)

/-- The value is zero-extended. A write to index 31 is disregarded. -/
def updateSingle32BitGPR (wIdx : BitVec 5) (val : BitVec 32) : State m :=
  { s with gprs := fun i => if wIdx = BitVec.ofNat 5 i then val.setWidth 64 else s.gprs i }

/-! The readers give `none` where their assertion fails. -/

def getVectorRegisterSizeT (zIdx : ℕ) : Option (BitVec m.svl) :=
  if h : zIdx < 32 then some (s.zRegs ⟨zIdx, h⟩) else none

def getPredicateRegisterSizeT (pIdx : ℕ) : Option (BitVec m.pRegWidth) :=
  if h : pIdx < 16 then some (s.pRegs ⟨pIdx, h⟩) else none

/-- Index 31 is allowed: `WZR`. -/
def get32BitGPRSizeT (wIdx : ℕ) : Option (BitVec 32) :=
  if wIdx = 31 then some 0
  else if h : wIdx < 31 then some ((s.gprs ⟨wIdx, h⟩).extractLsb' 0 32)
  else none

/-- Index 31 is allowed: `SP` or `XZR`. -/
def get64BitGPRSizeT (xIdx : ℕ) (useSp : Bool := false) : Option (BitVec 64) :=
  if xIdx = 31 then some (if useSp then s.sp else 0)
  else if h : xIdx < 31 then some (s.gprs ⟨xIdx, h⟩)
  else none

/-- A call of one of the update helpers. -/
inductive RegisterUpdate (m : ArmSme) where
  | vector (zIdx : BitVec 5) (val : BitVec m.svl)
  | predicate (pIdx : BitVec 4) (val : BitVec m.pRegWidth)
  | gpr32 (wIdx : BitVec 5) (val : BitVec 32)
  | gpr64 (xIdx : BitVec 5) (val : BitVec 64) (useSp : Bool)

def RegisterUpdate.apply : RegisterUpdate m → State m
  | .vector zIdx val => updateSingleVectorRegister s zIdx val
  | .predicate pIdx val => updateSinglePredicateRegister s pIdx val
  | .gpr32 wIdx val => updateSingle32BitGPR s wIdx val
  | .gpr64 xIdx val useSp => updateSingle64BitGPR s xIdx val useSp

end ArmSmeIla
