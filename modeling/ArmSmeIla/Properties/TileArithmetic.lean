import ArmSmeIla.Model.Instructions
import ArmSmeIla.Views.TileUpdates

/-!
# What the accumulating instructions compute

Element by element, for every size, vector length and choice of registers, and
for the float instructions over arbitrary arithmetic.
-/

namespace ArmSmeIla

open Packing Lines

variable {m : ArmSme}

/-! ## Integer outer products -/

/-- Element `(r, c)` becomes `old ± ∑ₖ aₖ * bₖ`, the sum over the active pairs
in exact integers, modulo `2 ^ esize`. -/
theorem integerOuterProduct_exact (fp : FpFunctions) (op : IntegerOuterProduct) (esize : AccSize)
    (inp : Inputs m) (s : State m) :
    TileUpdated esize (tileOf esize inp.zada) s.za
      (exec fp (.integerOuterProduct op esize) inp s).za fun r c old =>
        let sum := dotProduct (getVectorRegister s inp.zn) (getVectorRegister s inp.zm)
          (getPredicateRegister s inp.pn) (getPredicateRegister s inp.pm) esize op.op1Unsigned
          op.op2Unsigned r c
        BitVec.ofInt _ (if op.subOp then old.toNat - sum else old.toNat + sum) := by
  apply TileUpdated.of_tiles
  refine (tiles_integerCombineTileWithMatrices (toConstrainedTileIndex_toNat inp.zada esize) s.za
    _ _ _ _ op.subOp op.op1Unsigned op.op2Unsigned).trans ?_
  congr 1
  apply Matrix.ext
  intro r c
  have hold : ∀ old : BitVec (esize : ElementSize).bits,
      old = BitVec.ofInt _ (old.toNat : ℤ) := fun old => by
    rw [BitVec.ofInt_natCast, BitVec.ofNat_toNat, BitVec.setWidth_eq]
  simp only [Matrix.add_apply, Matrix.of_apply, integerDelta_eq_ofInt]
  conv_lhs => rw [hold (tiles esize s.za (tileOf esize inp.zada) r c)]
  rw [← BitVec.ofInt_add]
  cases op.subOp with
  | false => rfl
  | true => rfl

/-! ## Float outer products -/

namespace WideningOuterProduct

def subOp : WideningOuterProduct → Bool
  | .bfmopa | .fmopa => false
  | .bfmops | .fmops => true

def negFn (fp : FpFunctions) : WideningOuterProduct → BitVec 16 → BitVec 16
  | .bfmopa | .bfmops => fp.bfneg16
  | .fmopa | .fmops => fp.fpneg16

def dotaddFn (fp : FpFunctions) : WideningOuterProduct →
    BitVec 32 → BitVec 16 → BitVec 16 → BitVec 16 → BitVec 16 → BitVec 32
  | .bfmopa | .bfmops => fp.bfdotadd16to32
  | .fmopa | .fmops => fp.fpdotadd16to32

end WideningOuterProduct

theorem wideningOuterProduct_eq (fp : FpFunctions) (op : WideningOuterProduct) (inp : Inputs m)
    (s : State m) :
    wideningOuterProduct s inp fp op = floatK2 s inp op.subOp (op.negFn fp) (op.dotaddFn fp) := by
  cases op <;> rfl

/-- A pair counts when both of its elements are active; an inactive element
contributes zero, not negated, and a cell without an active pair is kept. -/
theorem wideningOuterProduct_exact (fp : FpFunctions) (op : WideningOuterProduct)
    (inp : Inputs m) (s : State m) :
    TileUpdated .word (tileOf .word inp.zada) s.za
      (exec fp (.wideningOuterProduct op) inp s).za fun r c old =>
        let p (j : ℕ) : Bool := (getPredicateRegister s inp.pn).getLsbD (2 * (2 * r + j))
        let q (j : ℕ) : Bool := (getPredicateRegister s inp.pm).getLsbD (2 * (2 * c + j))
        let a (j : ℕ) : BitVec 16 :=
          if p j then
            if op.subOp then
              op.negFn fp (getElementInVectorFromLSB (getVectorRegister s inp.zn) (2 * r + j) 16)
            else getElementInVectorFromLSB (getVectorRegister s inp.zn) (2 * r + j) 16
          else 0
        let b (j : ℕ) : BitVec 16 :=
          if q j then getElementInVectorFromLSB (getVectorRegister s inp.zm) (2 * c + j) 16 else 0
        if (p 0 && q 0) || (p 1 && q 1) then op.dotaddFn fp old (a 0) (a 1) (b 0) (b 1)
        else old := by
  apply TileUpdated.of_tiles
  show tiles .word (wideningOuterProduct s inp fp op).za = _
  rw [wideningOuterProduct_eq]
  refine (tiles_floatCombineTileWithMatricesK2 (toConstrainedTileIndex_toNat inp.zada .word) s.za
    _ _ _ _ op.subOp (0 : BitVec ElementSize.half.bits) (op.negFn fp) (op.dotaddFn fp)).trans ?_
  congr 1
  apply Matrix.ext
  intro r c
  have hbytes : ∀ i, i * ElementSize.half.bytes = 2 * i := fun i => Nat.mul_comm i 2
  simp only [Matrix.of_apply, wideningOperand, hbytes, Nat.add_zero, getElementInVectorFromLSB_eq]
  cases op.subOp with
  | false => rfl
  | true => rfl

/-- The operations of `FMOPA` and `FMOPS` at one precision. -/
def FpFunctions.fpneg (fp : FpFunctions) :
    (esize : AccSize) → BitVec (esize : ElementSize).bits → BitVec (esize : ElementSize).bits
  | .word => fp.fpneg32
  | .double => fp.fpneg64

def FpFunctions.fpmac (fp : FpFunctions) :
    (esize : AccSize) → BitVec (esize : ElementSize).bits → BitVec (esize : ElementSize).bits →
      BitVec (esize : ElementSize).bits → BitVec (esize : ElementSize).bits
  | .word => fp.fpmac32
  | .double => fp.fpmac64

theorem floatK1_updated (esize : ElementSize) (inp : Inputs m) (s : State m) (subOp : Bool)
    (negFn : BitVec esize.bits → BitVec esize.bits)
    (fmacFn : BitVec esize.bits → BitVec esize.bits → BitVec esize.bits → BitVec esize.bits) :
    TileUpdated esize (tileOf esize inp.zada) s.za (floatK1 s inp esize subOp negFn fmacFn).za
      fun r c old =>
        let a := getElementInVectorFromLSB (getVectorRegister s inp.zn) r esize.bits
        let b := getElementInVectorFromLSB (getVectorRegister s inp.zm) c esize.bits
        if (getPredicateRegister s inp.pn).getLsbD (r * (esize.bits / 8)) &&
            (getPredicateRegister s inp.pm).getLsbD (c * (esize.bits / 8)) then
          fmacFn old (if subOp then negFn a else a) b
        else old :=
  TileUpdated.of_tiles (tiles_floatCombineTileWithMatricesK1
    (toConstrainedTileIndex_toNat inp.zada esize) s.za _ _ _ _ subOp negFn fmacFn)

/-- The rows belong to `Zn` and `Pn`, the columns to `Zm` and `Pm`. -/
theorem fmopa_fmops_exact (fp : FpFunctions) (esize : AccSize) (subOp : Bool) (inp : Inputs m)
    (s : State m) :
    TileUpdated esize (tileOf esize inp.zada) s.za
      (exec fp (if subOp then .fmops esize else .fmopa esize) inp s).za fun r c old =>
        let a := getElementInVectorFromLSB (getVectorRegister s inp.zn) r _
        let b := getElementInVectorFromLSB (getVectorRegister s inp.zm) c _
        if (getPredicateRegister s inp.pn).getLsbD (r * ((esize : ElementSize).bits / 8)) &&
            (getPredicateRegister s inp.pm).getLsbD (c * ((esize : ElementSize).bits / 8)) then
          fp.fpmac esize old (if subOp then fp.fpneg esize a else a) b
        else old := by
  have h := floatK1_updated esize inp s subOp (fp.fpneg esize) (fp.fpmac esize)
  cases subOp <;> cases esize <;> exact h

/-! ## ADDHA and ADDVA -/

section Sums

variable (inp : Inputs m) (s : State m)

/-- The sum of both instructions: `extra` of the indices is added where row bit
`r` and column bit `c` are active. -/
def activeSum (esize : ElementSize) (extra : ℕ → ℕ → BitVec esize.bits) (r c : ℕ)
    (old : BitVec esize.bits) : BitVec esize.bits :=
  if (getPredicateRegister s inp.pn).getLsbD (r * (esize.bits / 8)) &&
      (getPredicateRegister s inp.pm).getLsbD (c * (esize.bits / 8)) then
    BitVec.ofNat esize.bits (old.toNat + (extra r c).toNat)
  else old

theorem addha_updated (esize : ElementSize) :
    TileUpdated esize (tileOf esize inp.zada) s.za (addha s inp esize).za
      (activeSum inp s esize fun _ c =>
        getElementInVectorFromLSB (getVectorRegister s inp.zn) c esize.bits) := by
  apply TileUpdated.of_tiles
  refine (tiles_combineTileWithHorizontalVector (toConstrainedTileIndex_toNat inp.zada esize) s.za
    _ _ _ false _).trans ?_
  simp only [activeSum, BitVec.ofNat_add, BitVec.ofNat_toNat, BitVec.setWidth_eq]
  rfl

theorem addva_updated (esize : ElementSize) :
    TileUpdated esize (tileOf esize inp.zada) s.za (addva s inp esize).za
      (activeSum inp s esize fun r _ =>
        getElementInVectorFromLSB (getVectorRegister s inp.zn) r esize.bits) := by
  apply TileUpdated.of_tiles
  refine (tiles_combineTileWithVerticalVector (toConstrainedTileIndex_toNat inp.zada esize) s.za
    _ _ _ false _).trans ?_
  simp only [activeSum, BitVec.ofNat_add, BitVec.ofNat_toNat, BitVec.setWidth_eq]
  rfl

end Sums

/-- Operands of an `ADDVA` and an `ADDHA` that are transposes of one another. -/
structure TransposedOperands (esize : ElementSize) (inp inp' : Inputs m) (s s' : State m) :
    Prop where
  tile : ∀ r < m.dim esize, ∀ c < m.dim esize,
    tileElem s'.za (tileOf esize inp'.zada) c r = tileElem s.za (tileOf esize inp.zada) r c
  vector : getVectorRegister s' inp'.zn = getVectorRegister s inp.zn
  rows : getPredicateRegister s' inp'.pn = getPredicateRegister s inp.pm
  cols : getPredicateRegister s' inp'.pm = getPredicateRegister s inp.pn

/-- `ADDHA` adds element `c` of the vector in column `c`, `ADDVA` element `r`
in row `r`; the one is the transpose of the other. -/
theorem addha_addva_exact (fp : FpFunctions) (esize : AccSize) (inp : Inputs m) (s : State m) :
    TileUpdated esize (tileOf esize inp.zada) s.za (exec fp (.addha esize) inp s).za
      (activeSum inp s esize fun _ c =>
        getElementInVectorFromLSB (getVectorRegister s inp.zn) c _) ∧
    TileUpdated esize (tileOf esize inp.zada) s.za (exec fp (.addva esize) inp s).za
      (activeSum inp s esize fun r _ =>
        getElementInVectorFromLSB (getVectorRegister s inp.zn) r _) ∧
    ∀ (inp' : Inputs m) (s' : State m), TransposedOperands esize inp inp' s s' →
      ∀ r < m.dim esize, ∀ c < m.dim esize,
        tileElem (exec fp (.addva esize) inp s).za (tileOf esize inp.zada) r c =
          tileElem (exec fp (.addha esize) inp' s').za (tileOf esize inp'.zada) c r := by
  refine ⟨addha_updated inp s esize, addva_updated inp s esize, ?_⟩
  rintro inp' s' ⟨htile, hvector, hrows, hcols⟩ r hr c hc
  have hva := (addva_updated inp s esize).elements r hr c hc
  have hha := (addha_updated inp' s' esize).elements c hc r hr
  refine hva.trans (Eq.trans ?_ hha.symm)
  simp only [activeSum, htile r hr c hc, hvector, hrows, hcols]
  rw [Bool.and_comm]

/-- Row 0 and column 1 are active, so `ADDVA` adds at `(0, 1)`, where the tile
holds 7; in the transpose it is `ADDHA` at `(1, 0)`. -/
theorem addha_addva_exact_swapped :
    let inp : Inputs smeDramLE := { (default : Inputs smeDramLE) with pn := 1, pm := 2, zn := 3 }
    let inp' : Inputs smeDramLE := { inp with pn := 2, pm := 1 }
    let s : State smeDramLE :=
      { (default : State smeDramLE) with
        za := fun addr => if addr = 7 then 7 else 0
        zRegs := fun _ => 0x0123456789ABCDEF, pRegs := fun i => if i = 1 then 0x0001 else 0x0100 }
    let s' : State smeDramLE := { s with za := fun addr => if addr = 0x8F then 7 else 0 }
    tileElem (exec default (.addva .double) inp s).za (tileOf .double inp.zada) 0 1 =
        tileElem (exec default (.addha .double) inp' s').za (tileOf .double inp'.zada) 1 0 ∧
      tileElem (exec default (.addva .double) inp s).za (tileOf .double inp.zada) 0 1 =
        0x0123456789ABCDEF + 7 := by
  intro inp inp' s s'
  have htile : ∀ r < smeDramLE.dim .double, ∀ c < smeDramLE.dim .double,
      tileElem s'.za (tileOf .double inp'.zada) c r =
        tileElem s.za (tileOf .double inp.zada) r c := by
    decide
  constructor
  · exact (addha_addva_exact default .double inp s).2.2 inp' s' ⟨htile, rfl, rfl, rfl⟩ 0 (by decide)
      1 (by decide)
  · decide

end ArmSmeIla
