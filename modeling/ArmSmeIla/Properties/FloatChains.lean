import ArmSmeIla.Properties.BlockTransfers
import ArmSmeIla.Properties.IeeeSubstitution
import ArmSmeIla.Properties.MatrixProduct

/-!
# Float accumulation over runs

Float operations do not reassociate, so for float outer products the order of
the steps matters. Each element goes through its own chain of operations: those
of the steps that are active for it, one after the other.
-/

namespace ArmSmeIla

open Arch Packing

variable {m : ArmSme}

/-! ## Terms -/

/-- What an active step does to an element, with its operands. -/
inductive FloatTerm : AccSize → Type where
  | mac {esize : AccSize} (a b : BitVec (esize : ElementSize).bits) : FloatTerm esize
  | dotadd (op : WideningOuterProduct) (a0 a1 b0 b1 : BitVec 16) : FloatTerm .word

namespace FloatTerm

def apply (fp : FpFunctions) {esize : AccSize} (acc : BitVec (esize : ElementSize).bits) :
    FloatTerm esize → BitVec (esize : ElementSize).bits
  | .mac a b => fp.fpmac esize acc a b
  | .dotadd op a0 a1 b0 b1 => op.dotaddFn fp acc a0 a1 b0 b1

/-- The same in a floating-point theory: one rounding for a `mac`, double
precision inside a `dotadd`. -/
def ieee (z : Fpa) {esize : AccSize} (acc : BitVec (esize : ElementSize).bits) :
    FloatTerm esize → BitVec (esize : ElementSize).bits
  | .mac a b =>
      match esize with
      | .word => z.fpmac .fp32 acc a b
      | .double => z.fpmac .fp64 acc a b
  | .dotadd op a0 a1 b0 b1 =>
      match op with
      | .bfmopa | .bfmops => z.dotadd z.widenBf16 acc a0 a1 b0 b1
      | .fmopa | .fmops => z.dotadd (z.widen .fp16) acc a0 a1 b0 b1

theorem apply_ieeeFunctions (z : Fpa) {esize : AccSize}
    (acc : BitVec (esize : ElementSize).bits) (term : FloatTerm esize) :
    term.apply z.ieeeFunctions.toFpFunctions acc = term.ieee z acc := by
  cases term with
  | mac a b => cases esize <;> rfl
  | dotadd op a0 a1 b0 b1 => cases op <;> rfl

end FloatTerm

/-- The term of a step for element `(r, c)`, if it is active there. -/
def newTerm (fp : FpFunctions) (a : Arch.State m) (inp : Inputs m) (r c : ℕ) :
    (esize : AccSize) → Instr → Option (FloatTerm esize)
  | esize, .fmopa _ =>
      if a.both inp esize r c then
        some (.mac (elem (a.zReg inp.zn) r _) (elem (a.zReg inp.zm) c _))
      else none
  | esize, .fmops _ =>
      if a.both inp esize r c then
        some (.mac (fp.fpneg esize (elem (a.zReg inp.zn) r _)) (elem (a.zReg inp.zm) c _))
      else none
  | .word, .wideningOuterProduct op =>
      let neg := if op.subOp then op.negFn fp else id
      -- an inactive half of an active pair is zero
      if a.both inp .half (2 * r) (2 * c) || a.both inp .half (2 * r + 1) (2 * c + 1) then
        some (.dotadd op
          (wideningOperand (a.zReg inp.zn) (a.pReg inp.pn) .half 0 neg (2 * r))
          (wideningOperand (a.zReg inp.zn) (a.pReg inp.pn) .half 0 neg (2 * r + 1))
          (wideningOperand (a.zReg inp.zm) (a.pReg inp.pm) .half 0 id (2 * c))
          (wideningOperand (a.zReg inp.zm) (a.pReg inp.pm) .half 0 id (2 * c + 1)))
      else none
  | _, _ => none

/-! ## Runs -/

/-- Float outer products with results of the size. -/
def Instr.FloatsAt (i : Instr) (esize : AccSize) : Prop :=
  match i with
  | .fmopa e | .fmops e => e = esize
  | .wideningOuterProduct _ => esize = .word
  | _ => False

instance (i : Instr) (esize : AccSize) : Decidable (i.FloatsAt esize) :=
  match i with
  | .fmopa e | .fmops e => inferInstanceAs (Decidable (e = esize))
  | .wideningOuterProduct _ => inferInstanceAs (Decidable (esize = .word))
  | .smstart | .smstop | .movaT2V _ | .movaV2T _ | .zero | .addha _ | .addva _
  | .integerOuterProduct _ _ | .addspl | .addsvl | .rdsvl | .ld1 _ | .st1 _ | .ldr | .str
  | .psel _ | .revd | .sclamp _ | .uclamp _ => instDecidableFalse

/-- The step accumulates floats into the tile. -/
def FloatsInto (esize : AccSize) (tile : TileIdx (esize : ElementSize)) (l : Label m) : Prop :=
  l.1.FloatsAt esize ∧ tileOf esize l.2.zada = tile

instance (esize : AccSize) (tile : TileIdx (esize : ElementSize)) (l : Label m) :
    Decidable (FloatsInto esize tile l) :=
  inferInstanceAs (Decidable (_ ∧ _))

/-- The terms of an element along a run, each with the operands of its moment. -/
def floatTerms (fp : FpFunctions) (esize : AccSize) (tile : TileIdx (esize : ElementSize))
    (r c : ℕ) : State m → List (Label m) → List (FloatTerm esize)
  | _, [] => []
  | s, l :: ls =>
      (if FloatsInto esize tile l then (newTerm fp (view s 0) l.2 r c esize l.1).toList else []) ++
        floatTerms fp esize tile r c (exec fp l.1 l.2 s) ls

section Steps

variable (fp : FpFunctions) {esize : AccSize} {tile : TileIdx (esize : ElementSize)} (s : State m)
  {l : Label m} (r c : SliceIdx m (esize : ElementSize))

theorem tiles_exec_widening (inp : Inputs m) (op : WideningOuterProduct)
    (r c : SliceIdx m .word) :
    tiles .word (exec fp (.wideningOuterProduct op) inp s).za (tileOf .word inp.zada) r c =
      ((newTerm fp (view s 0) inp r c .word (.wideningOuterProduct op)).toList).foldl
        (fun (acc : BitVec (AccSize.word : ElementSize).bits) term => term.apply fp acc)
        (tiles .word s.za (tileOf .word inp.zada) r c) := by
  have hrows := rows_exec fp s 0 inp (.wideningOuterProduct op)
  unfold State.newZa at hrows
  rw [← lanes_rows, ← lanes_rows, hrows, lanes_mapTile, newTerm]
  by_cases hactive : ((view s 0).both inp .half (2 * r) (2 * c) ||
      (view s 0).both inp .half (2 * r + 1) (2 * c + 1)) = true
  · refine (if_pos hactive).trans ?_
    rw [if_pos hactive]
    rfl
  · refine (if_neg hactive).trans ?_
    rw [if_neg hactive]
    rfl

theorem tiles_exec_floats (h : FloatsInto esize tile l) :
    tiles esize (exec fp l.1 l.2 s).za tile r c =
      ((newTerm fp (view s 0) l.2 r c esize l.1).toList).foldl
        (fun acc term => term.apply fp acc) (tiles esize s.za tile r c) := by
  obtain ⟨i, inp⟩ := l
  obtain ⟨hat, rfl⟩ := h
  have hrows := rows_exec fp s 0 inp i
  cases i with
  | fmopa e =>
      obtain rfl : e = esize := hat
      unfold State.newZa at hrows
      rw [← lanes_rows, ← lanes_rows, hrows, lanes_mapTile, newTerm]
      split <;> rfl
  | fmops e =>
      obtain rfl : e = esize := hat
      unfold State.newZa at hrows
      rw [← lanes_rows, ← lanes_rows, hrows, lanes_mapTile, newTerm]
      split <;> rfl
  | wideningOuterProduct op =>
      obtain rfl : esize = .word := hat
      exact tiles_exec_widening fp s inp op r c
  | _ => cases hat

theorem tile_path_floats {s t : State m} {ls : List (Label m)} (run : Path fp s ls t)
    (others : ∀ l ∈ ls, FloatsInto esize tile l ∨
      ∀ row : RowIdx m, tileIn esize row = tile → Loc.row row ∉ writes l) :
    tiles esize t.za tile r c =
      (floatTerms fp esize tile r c s ls).foldl (fun acc term => term.apply fp acc)
        (tiles esize s.za tile r c) := by
  induction run with
  | nil s => rfl
  | @cons s mid t l ls h _ ih =>
      obtain ⟨-, rfl⟩ := h
      have hrest := ih fun l' hl' => others l' (List.mem_cons_of_mem l hl')
      rw [hrest, floatTerms, List.foldl_append]
      congr 1
      by_cases hfloats : FloatsInto esize tile l
      · rw [if_pos hfloats]
        exact tiles_exec_floats fp s r c hfloats
      · rw [if_neg hfloats]
        have hframe := (others l List.mem_cons_self).resolve_left hfloats
        exact congrFun (congrFun (tile_exec_frame fp s hframe) r) c

end Steps

/-- Integers in the place of floats of every format. -/
def integerFpa : Fpa where
  Float _ := ℤ
  Mode := Unit
  rne := ()
  ofIeeeBv _ x := x.toInt
  toIeeeBv f n := BitVec.ofInt f.bits n
  neg _ x := -x
  add _ _ x y := x + y
  mul _ _ x y := x * y
  fma _ _ x y z := x * y + z
  convert _ _ _ x := x

end ArmSmeIla
