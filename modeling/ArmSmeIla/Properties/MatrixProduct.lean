import ArmSmeIla.Architecture.Locations
import ArmSmeIla.Properties.Accumulation
import Mathlib.Data.Matrix.Mul

/-!
# Matrix products over runs

An outer product multiplies two operands of `dim` rows and four columns that
lie in vector registers. A run of them, mixed with anything that leaves the tile
alone, adds up the products in integers; the tile keeps the sum modulo `2 ^ esize`.
-/

namespace ArmSmeIla

open Arch Packing Matrix

variable {m : ArmSme}

/-! ## Operands as matrices -/

/-- A vector of quarter-size elements as a matrix with four columns; inactive
elements count as zero. -/
def operandMatrix (vec : BitVec m.svl) (pred : BitVec m.pRegWidth) (esize : ElementSize)
    (isUnsigned : Bool) : Matrix (SliceIdx m esize) (Fin 4) ℤ :=
  Matrix.of fun r k =>
    if pred.getLsbD ((4 * r + k) * (esize.bits / 32)) then
      operandValue (elem vec (4 * r + k) (esize.bits / 4)) isUnsigned
    else 0

theorem dotProduct_eq_mul (vec1 vec2 : BitVec m.svl) (rowPred colPred : BitVec m.pRegWidth)
    (esize : ElementSize) (op1Unsigned op2Unsigned : Bool) (r c : SliceIdx m esize) :
    dotProduct vec1 vec2 rowPred colPred esize op1Unsigned op2Unsigned r c =
      (operandMatrix vec1 rowPred esize op1Unsigned *
        (operandMatrix vec2 colPred esize op2Unsigned)ᵀ) r c := by
  rw [dotProduct, Matrix.mul_apply, Finset.sum_range]
  apply Finset.sum_congr rfl
  intro k _
  simp only [operandMatrix, Matrix.transpose_apply, Matrix.of_apply, ite_zero_mul_ite_zero,
    Bool.and_eq_true]

/-- The active elements of a vector, as integers. -/
def maskedLanes (vec : BitVec m.svl) (pred : BitVec m.pRegWidth) (esize : ElementSize) :
    SliceIdx m esize → ℤ :=
  fun i => if pred.getLsbD (i * esize.bytes) then (lanes esize vec i).toInt else 0

/-- One for an active element. -/
def maskColumn (pred : BitVec m.pRegWidth) (esize : ElementSize) : SliceIdx m esize → ℤ :=
  fun i => if pred.getLsbD (i * esize.bytes) then 1 else 0

/-- The integers that an accumulating instruction adds to its tile. -/
def amount (s : State m) (inp : Inputs m) (esize : ElementSize) (i : Instr) :
    Matrix (SliceIdx m esize) (SliceIdx m esize) ℤ :=
  let pn := getPredicateRegister s inp.pn
  let pm := getPredicateRegister s inp.pm
  let zn := getVectorRegister s inp.zn
  let zm := getVectorRegister s inp.zm
  match i with
  | .addha _ => vecMulVec (maskColumn pn esize) (maskedLanes zn pm esize)
  | .addva _ => vecMulVec (maskedLanes zn pn esize) (maskColumn pm esize)
  | .integerOuterProduct op _ =>
      let product := operandMatrix zn pn esize op.op1Unsigned *
        (operandMatrix zm pm esize op.op2Unsigned)ᵀ
      if op.subOp then -product else product
  | _ => 0

/-- What the code adds is these integers, wrapped. -/
theorem addedMatrix_eq_map (s : State m) (inp : Inputs m) (esize : ElementSize) (i : Instr) :
    addedMatrix s inp esize i = (amount s inp esize i).map (BitVec.ofInt _) := by
  apply Matrix.ext
  intro r c
  have hlane : ∀ (v : BitVec m.svl) (k : SliceIdx m esize),
      lanes esize v k = BitVec.ofInt _ (lanes esize v k).toInt := fun v k =>
    BitVec.ofInt_toInt.symm
  unfold addedMatrix amount
  cases i with
  | addha e =>
      simp only [Matrix.of_apply, Matrix.map_apply, vecMulVec_apply, maskColumn, maskedLanes,
        ite_zero_mul_ite_zero, one_mul, Bool.and_eq_true]
      split
      · exact hlane _ c
      · rfl
  | addva e =>
      simp only [Matrix.of_apply, Matrix.map_apply, vecMulVec_apply, maskColumn, maskedLanes,
        ite_zero_mul_ite_zero, mul_one, Bool.and_eq_true]
      split
      · exact hlane _ r
      · rfl
  | integerOuterProduct op e =>
      simp only [Matrix.of_apply, Matrix.map_apply, integerDelta_eq_ofInt, dotProduct_eq_mul]
      cases op.subOp <;> rfl
  | _ => rfl

/-! ## Runs -/

/-- The step accumulates at the size into the tile. -/
def AccumulatesInto (esize : AccSize) (tile : TileIdx (esize : ElementSize)) (l : Label m) : Prop :=
  l.1.AccumulatesAt esize ∧ tileOf esize l.2.zada = tile

instance (esize : AccSize) (tile : TileIdx (esize : ElementSize)) (l : Label m) :
    Decidable (AccumulatesInto esize tile l) := by
  unfold AccumulatesInto Instr.AccumulatesAt
  cases l.1 <;> infer_instance

/-- The amounts of the steps that accumulate into the tile, each with the
operands of its own moment. -/
def totalAmount (fp : FpFunctions) (esize : AccSize) (tile : TileIdx (esize : ElementSize)) :
    State m → List (Label m) → Matrix (SliceIdx m esize) (SliceIdx m esize) ℤ
  | _, [] => 0
  | s, l :: ls =>
      (if AccumulatesInto esize tile l then amount s l.2 esize l.1 else 0) +
        totalAmount fp esize tile (exec fp l.1 l.2 s) ls

theorem map_ofInt_add {n : Type*} {w : ℕ} (M N : Matrix n n ℤ) :
    (M + N).map (BitVec.ofInt w) = M.map (BitVec.ofInt w) + N.map (BitVec.ofInt w) :=
  Matrix.map_add _ (fun _ _ => BitVec.ofInt_add ..) M N

/-- A step that writes none of a tile's rows keeps the tile. -/
theorem tile_exec_frame (fp : FpFunctions) {esize : ElementSize} {tile : TileIdx esize}
    (s : State m) {l : Label m}
    (h : ∀ r : RowIdx m, tileIn esize r = tile → Loc.row r ∉ writes l) :
    tiles esize (exec fp l.1 l.2 s).za tile = tiles esize s.za tile := by
  apply Matrix.ext
  intro r c
  have hrow : rows (exec fp l.1 l.2 s).za (rowAt tile r) = rows s.za (rowAt tile r) :=
    get_frame fp s (h _ (tileIn_rowAt tile r))
  rw [← lanes_rows, ← lanes_rows, hrow]

theorem tile_exec_accumulate (fp : FpFunctions) {esize : AccSize}
    {tile : TileIdx (esize : ElementSize)} (s : State m) {l : Label m}
    (h : AccumulatesInto esize tile l) :
    tiles esize (exec fp l.1 l.2 s).za tile =
      tiles esize s.za tile + (amount s l.2 esize l.1).map (BitVec.ofInt _) := by
  rw [tiles_exec_accumulate s h.1, Pi.add_apply, added, h.2, Pi.single_eq_same,
    addedMatrix_eq_map]

theorem tile_path_accumulate (fp : FpFunctions) {esize : AccSize}
    {tile : TileIdx (esize : ElementSize)} {s t : State m} {ls : List (Label m)}
    (run : Path fp s ls t)
    (others : ∀ l ∈ ls, AccumulatesInto esize tile l ∨
      ∀ r : RowIdx m, tileIn esize r = tile → Loc.row r ∉ writes l) :
    tiles esize t.za tile =
      tiles esize s.za tile + (totalAmount fp esize tile s ls).map (BitVec.ofInt _) := by
  induction run with
  | nil s => exact (add_zero _).symm
  | @cons s mid t l ls h _ ih =>
      rcases h with ⟨-, rfl⟩
      have hrest := ih fun l' hl' => others l' (List.mem_cons_of_mem l hl')
      rw [hrest, totalAmount, map_ofInt_add, ← add_assoc]
      congr 1
      by_cases hacc : AccumulatesInto esize tile l
      · rw [if_pos hacc]
        exact tile_exec_accumulate fp s hacc
      · rw [if_neg hacc]
        have hframe := (others l List.mem_cons_self).resolve_left hacc
        exact (tile_exec_frame fp s hframe).trans (add_zero _).symm

/-- A sum that fits is not wrapped. -/
theorem toInt_add_ofInt {w : ℕ} (hw : 0 < w) (x : BitVec w) (n : ℤ)
    (hlow : -2 ^ (w - 1) ≤ x.toInt + n) (hhigh : x.toInt + n < 2 ^ (w - 1)) :
    (x + BitVec.ofInt w n).toInt = x.toInt + n := by
  conv_lhs => rw [← BitVec.ofInt_toInt (x := x)]
  rw [← BitVec.ofInt_add]
  exact BitVec.toInt_ofInt_eq_self hw hlow hhigh

end ArmSmeIla
