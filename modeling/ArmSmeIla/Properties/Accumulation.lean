import ArmSmeIla.Foundation.Accumulation
import ArmSmeIla.Views.CombineMatrix
import ArmSmeIla.Views.Footprints

/-!
# Integer accumulation into ZA

`ADDHA`, `ADDVA` and the integer outer products add a matrix to one tile, and
the matrix is a function of registers they do not write. So a sequence of them
is a sum, in wrapping arithmetic.
-/

namespace ArmSmeIla

open Packing

variable {m : ArmSme} {fp : FpFunctions}

/-! ## What one instruction adds -/

/-- The instructions that accumulate integers at one element size. -/
def Instr.AccumulatesAt (esize : AccSize) : Instr → Prop
  | .addha e | .addva e | .integerOuterProduct _ e => e = esize
  | _ => False

/-- The matrix an accumulating instruction adds to its tile. -/
def addedMatrix (s : State m) (inp : Inputs m) (esize : ElementSize) (i : Instr) :
    Matrix (SliceIdx m esize) (SliceIdx m esize) (BitVec esize.bits) :=
  let pn := getPredicateRegister s inp.pn
  let pm := getPredicateRegister s inp.pm
  let zn := getVectorRegister s inp.zn
  let zm := getVectorRegister s inp.zm
  Matrix.of fun r c =>
    match i with
    | .addha _ =>
        if pn.getLsbD (r * esize.bytes) && pm.getLsbD (c * esize.bytes) then lanes esize zn c else 0
    | .addva _ =>
        if pn.getLsbD (r * esize.bytes) && pm.getLsbD (c * esize.bytes) then lanes esize zn r else 0
    | .integerOuterProduct op _ =>
        integerDelta zn zm pn pm esize op.subOp op.op1Unsigned op.op2Unsigned r c
    | _ => 0

/-- The same as a family: nothing is added to the other tiles. -/
def added (s : State m) (esize : ElementSize) (l : Label m) :
    TileIdx esize → Matrix (SliceIdx m esize) (SliceIdx m esize) (BitVec esize.bits) :=
  Pi.single (tileOf esize l.2.zada) (addedMatrix s l.2 esize l.1)

theorem update_add_eq {τ G : Type*} [DecidableEq τ] [AddCommGroup G] (F : τ → G) (t : τ) (d : G) :
    Function.update F t (F t + d) = F + Pi.single t d := by
  funext t'
  by_cases h : t' = t
  · subst h
    simp
  · simp [h]

theorem tiles_exec_accumulate (s : State m) {l : Label m} {esize : AccSize}
    (h : l.1.AccumulatesAt esize) :
    tiles esize (exec fp l.1 l.2 s).za = tiles esize s.za + added s esize l := by
  rcases l with ⟨i, inp⟩
  have htile := toConstrainedTileIndex_toNat inp.zada (esize : ElementSize)
  rw [added, ← update_add_eq]
  cases i with
  | addha e =>
      obtain rfl : e = esize := h
      refine (tiles_combineTileWithHorizontalVector htile s.za _ _ _ false _).trans ?_
      congr 1
      apply Matrix.ext
      intro r c
      simp only [addedMatrix, Matrix.of_apply, Matrix.add_apply]
      split <;> simp
  | addva e =>
      obtain rfl : e = esize := h
      refine (tiles_combineTileWithVerticalVector htile s.za _ _ _ false _).trans ?_
      congr 1
      apply Matrix.ext
      intro r c
      simp only [addedMatrix, Matrix.of_apply, Matrix.add_apply]
      split <;> simp
  | integerOuterProduct op e =>
      obtain rfl : e = esize := h
      exact tiles_integerCombineTileWithMatrices htile s.za _ _ _ _ op.subOp op.op1Unsigned
        op.op2Unsigned
  | _ => exact absurd h id

/-- The amounts of a sequence can all be taken from its initial state. -/
theorem accumulates (fp : FpFunctions) (esize : AccSize) (s : State m) :
    Accumulates (fun s (l : Label m) => exec fp l.1 l.2 s)
      (fun t => t.zRegs = s.zRegs ∧ t.pRegs = s.pRegs) (fun l => l.1.AccumulatesAt esize)
      (fun t => tiles esize t.za) (added s esize) where
  keeps := by
    rintro t ⟨i, inp⟩ hi ⟨hz, hp⟩
    have hwrites : i.writes .zRegs = false ∧ i.writes .pRegs = false := by
      cases i <;> first | exact ⟨rfl, rfl⟩ | exact absurd hi id
    exact ⟨(exec_zRegs fp inp t hwrites.1).trans hz, (exec_pRegs fp inp t hwrites.2).trans hp⟩
  adds := by
    rintro t l hl ⟨hz, hp⟩
    rw [tiles_exec_accumulate t hl]
    simp only [added, addedMatrix]
    rw [getVectorRegister_congr hz, getPredicateRegister_congr hp]

/-! ## Opposite outer products -/

/-- The subtract form of an accumulate, and conversely. -/
def IntegerOuterProduct.counterpart : IntegerOuterProduct → IntegerOuterProduct
  | .smopa => .smops
  | .smops => .smopa
  | .sumopa => .sumops
  | .sumops => .sumopa
  | .umopa => .umops
  | .umops => .umopa
  | .usmopa => .usmops
  | .usmops => .usmopa

theorem counterpart_spec (op : IntegerOuterProduct) :
    op.counterpart.subOp = !op.subOp ∧ op.counterpart.op1Unsigned = op.op1Unsigned ∧
      op.counterpart.op2Unsigned = op.op2Unsigned := by
  cases op <;> exact ⟨rfl, rfl, rfl⟩

/-- Subtracting the products gives the opposite sum. -/
theorem integerDelta_sub (vec1 vec2 : BitVec m.svl) (rowPred colPred : BitVec m.pRegWidth)
    (esize : ElementSize) (op1Unsigned op2Unsigned : Bool) (row col : ℕ) :
    integerDelta vec1 vec2 rowPred colPred esize true op1Unsigned op2Unsigned row col =
      -integerDelta vec1 vec2 rowPred colPred esize false op1Unsigned op2Unsigned row col := by
  rw [integerDelta_eq_ofInt, integerDelta_eq_ofInt]
  show BitVec.ofInt _
      (-dotProduct vec1 vec2 rowPred colPred esize op1Unsigned op2Unsigned row col) =
    -BitVec.ofInt _ (dotProduct vec1 vec2 rowPred colPred esize op1Unsigned op2Unsigned row col)
  exact BitVec.ofInt_neg

/-- Two steps with the same tile, vector and predicate operands. -/
structure SameOperands (s : State m) (esize : ElementSize) (inp inp' : Inputs m) : Prop where
  zada : tileOf esize inp'.zada = tileOf esize inp.zada
  zn : getVectorRegister s inp'.zn = getVectorRegister s inp.zn
  zm : getVectorRegister s inp'.zm = getVectorRegister s inp.zm
  pn : getPredicateRegister s inp'.pn = getPredicateRegister s inp.pn
  pm : getPredicateRegister s inp'.pm = getPredicateRegister s inp.pm

theorem added_counterpart (s : State m) (esize : AccSize) (op : IntegerOuterProduct)
    {inp inp' : Inputs m} (same : SameOperands s esize inp inp') :
    added s esize (.integerOuterProduct op esize, inp) +
      added s esize (.integerOuterProduct op.counterpart esize, inp') = 0 := by
  have hneg : addedMatrix s inp' esize (.integerOuterProduct op.counterpart esize) =
      -addedMatrix s inp esize (.integerOuterProduct op esize) := by
    rcases counterpart_spec op with ⟨hsub, hop1, hop2⟩
    apply Matrix.ext
    intro r c
    simp only [addedMatrix, Matrix.of_apply, Matrix.neg_apply, same.zn, same.zm, same.pn, same.pm,
      hsub, hop1, hop2]
    cases op.subOp with
    | false => exact integerDelta_sub ..
    | true => rw [integerDelta_sub, neg_neg]; rfl
  rw [added, added, same.zada, hneg, ← Pi.single_add, add_neg_cancel, Pi.single_zero]

/-- Permuting a sequence of accumulating instructions of one size does not
change the final ZA, and neither does inserting an outer product and its
counterpart on the same operands, in either order, at any two positions. -/
theorem accumulation_order_inverse (fp : FpFunctions) (esize : AccSize) (s : State m)
    {ls : List (Label m)} (hls : ∀ l ∈ ls, l.1.AccumulatesAt esize) :
    (∀ ls' : List (Label m), ls'.Perm ls → (execAll fp ls' s).za = (execAll fp ls s).za) ∧
    ∀ (op : IntegerOuterProduct) (inp inp' : Inputs m), SameOperands s esize inp inp' →
      ∀ pre mid post : List (Label m), ls = pre ++ mid ++ post →
        (execAll fp (pre ++ (.integerOuterProduct op esize, inp) :: mid ++
          (.integerOuterProduct op.counterpart esize, inp') :: post) s).za =
            (execAll fp ls s).za := by
  have acc := accumulates fp esize s
  constructor
  · intro ls' perm
    exact tiles_injective esize (acc.view_foldl_perm perm hls ⟨rfl, rfl⟩)
  · rintro op inp inp' same pre mid post rfl
    exact tiles_injective esize (acc.view_foldl_cancel (added_counterpart s esize op same) rfl rfl
      hls ⟨rfl, rfl⟩)

/-- A subtract form before, an accumulate after an `ADDVA` into the same tile. -/
theorem accumulation_order_inverse_umops :
    let inp : Inputs smeDramLE :=
      { (default : Inputs smeDramLE) with zada := 1, zn := 3, zm := 5, pn := 2 }
    let s : State smeDramLE :=
      { (default : State smeDramLE) with zRegs := fun i => i.val, pRegs := fun _ => 0xFFFF }
    (execAll default [(.integerOuterProduct .umops .word, inp), (.addva .word, inp),
      (.integerOuterProduct .umopa .word, inp)] s).za =
        (execAll default [(.addva .word, inp)] s).za := by
  intro inp s
  have hls : ∀ l ∈ [((.addva .word, inp) : Label smeDramLE)], l.1.AccumulatesAt .word := by
    intro l hl
    rw [List.mem_singleton.mp hl]
    rfl
  exact (accumulation_order_inverse default .word s hls).2 .umops inp inp ⟨rfl, rfl, rfl, rfl, rfl⟩
    [] [_] [] rfl

end ArmSmeIla
