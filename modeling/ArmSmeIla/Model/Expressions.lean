import Mathlib.Data.Nat.Notation

/-!
# Vector helpers on expressions

Element extraction and insertion and `Concatenate` (`arm.cc`) as they act on
ILA expressions. The width is a part of the expression here and not of its
type: `Extract` and `Concat` compute it, and nothing cuts a result down to the
width it should have. Sizes are natural numbers: with an index in range, no
intermediate value exceeds `vector_length_bits`.
-/

namespace ArmSmeIla

/-- A bit-vector expression: the width in its sort, and the value it denotes. -/
structure BvExpr where
  bitWidth : ℕ
  value : BitVec bitWidth
deriving DecidableEq, Repr

/-- Why there is no result: a `std::runtime_error`, or bits that do not exist. -/
inductive Failure where
  | runtimeError (what : String)
  | badRange
deriving DecidableEq, Repr

namespace BvExpr

/-- Bits `hi` down to `lo`. -/
def extract (bv : BvExpr) (hi lo : ℕ) : Except Failure BvExpr :=
  if lo ≤ hi ∧ hi < bv.bitWidth then .ok ⟨hi - lo + 1, bv.value.extractLsb hi lo⟩
  else .error .badRange

/-- The first operand is the more significant one. -/
def concat (hi lo : BvExpr) : BvExpr := ⟨hi.bitWidth + lo.bitWidth, hi.value ++ lo.value⟩

def concatenate : (elements : List BvExpr) → Except Failure BvExpr
  | [] => .error (.runtimeError "Concatenate(): elements is empty")
  | expr :: elements => .ok (elements.foldl concat expr)

/-- Rightmost element is index 0. -/
def getElementInVectorFromLSB (vector : BvExpr) (idx elementSizeBits : ℕ) :
    Except Failure BvExpr :=
  let rightmostIdx := idx * elementSizeBits
  vector.extract (rightmostIdx + elementSizeBits - 1) rightmostIdx

/-- Leftmost element is index 0. -/
def getElementInVectorFromMSB (vector : BvExpr) (idx elementSizeBits vectorLengthBits : ℕ) :
    Except Failure BvExpr :=
  let mirroredIdx := vectorLengthBits / elementSizeBits - 1 - idx
  getElementInVectorFromLSB vector mirroredIdx elementSizeBits

/-- New vector where the element at `idx` is replaced. -/
def setElementInVectorFromLSB (vector : BvExpr) (idx elementSizeBits : ℕ) (newElement : BvExpr)
    (vectorLengthBits : ℕ) : Except Failure BvExpr :=
  let numElements := vectorLengthBits / elementSizeBits
  if numElements = 0 then
    .error (.runtimeError ("SetElementInVectorFromLSB(): received no elements, " ++
      "possibly by integer division of input"))
  -- a single element fills the entire vector
  else if numElements = 1 then
    .ok newElement
  else
    let rightmostIdx := idx * elementSizeBits
    -- leftmost
    if idx = numElements - 1 then do
      let right ← vector.extract (rightmostIdx - 1) 0
      concatenate [newElement, right]
    -- rightmost
    else if idx = 0 then do
      let left ← vector.extract (vectorLengthBits - 1) (rightmostIdx + elementSizeBits)
      concatenate [left, newElement]
    else do
      let left ← vector.extract (vectorLengthBits - 1) (rightmostIdx + elementSizeBits)
      let right ← vector.extract (rightmostIdx - 1) 0
      concatenate [left, newElement, right]

def setElementInVectorFromMSB (vector : BvExpr) (idx elementSizeBits : ℕ) (newElement : BvExpr)
    (vectorLengthBits : ℕ) : Except Failure BvExpr :=
  let numElements := vectorLengthBits / elementSizeBits
  if numElements = 0 then
    .error (.runtimeError ("SetElementInVectorFromMSB(): received no elements, " ++
      "possibly by integer division of input"))
  else
    let mirroredIdx := numElements - 1 - idx
    setElementInVectorFromLSB vector mirroredIdx elementSizeBits newElement vectorLengthBits

end BvExpr

end ArmSmeIla
