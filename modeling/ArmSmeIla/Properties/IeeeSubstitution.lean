import ArmSmeIla.Model.FpSubstitute
import ArmSmeIla.Properties.Substitution

/-!
# What the IEEE substitution means

Over any floating-point theory the substituted expression means what the
original one does when the model's float functions are those of the theory. So
the models that a check finds are executions at that arithmetic.
-/

namespace ArmSmeIla

/-! ## Floating-point theories -/

/-- What Z3's theory provides, with its rounding modes. -/
structure Fpa where
  Float : FpFormat → Type
  Mode : Type
  rne : Mode
  ofIeeeBv : (f : FpFormat) → BitVec f.bits → Float f
  toIeeeBv : (f : FpFormat) → Float f → BitVec f.bits
  neg : (f : FpFormat) → Float f → Float f
  add : (f : FpFormat) → Mode → Float f → Float f → Float f
  mul : (f : FpFormat) → Mode → Float f → Float f → Float f
  fma : (f : FpFormat) → Mode → Float f → Float f → Float f → Float f
  convert : (src dst : FpFormat) → Mode → Float src → Float dst

/-- The functions of the model and the one that no instruction uses. -/
structure UfFunctions extends FpFunctions where
  fpdotadd32to32 : BitVec 32 → BitVec 32 → BitVec 32 → BitVec 32 → BitVec 32 → BitVec 32

namespace Fpa

variable (z : Fpa)

/-! ### The functions of the model -/

def widen (f : FpFormat) (x : BitVec f.bits) : z.Float .fp64 :=
  z.convert f .fp64 z.rne (z.ofIeeeBv f x)

/-- `bf16` is the upper half of a single. -/
def widenBf16 (x : BitVec 16) : z.Float .fp64 := z.widen .fp32 (x ++ 0#16)

def fpneg (f : FpFormat) (x : BitVec f.bits) : BitVec f.bits :=
  z.toIeeeBv f (z.neg f (z.ofIeeeBv f x))

def fpmac (f : FpFormat) (acc a b : BitVec f.bits) : BitVec f.bits :=
  z.toIeeeBv f (z.fma f z.rne (z.ofIeeeBv f a) (z.ofIeeeBv f b) (z.ofIeeeBv f acc))

/-- In double precision, with a rounding after each operation and a last one
to single precision. -/
def dotadd {w : ℕ} (widenArg : BitVec w → z.Float .fp64) (acc : BitVec 32)
    (a0 a1 b0 b1 : BitVec w) : BitVec 32 :=
  let product (a b : BitVec w) := z.mul .fp64 z.rne (widenArg a) (widenArg b)
  let sum := z.add .fp64 z.rne (z.add .fp64 z.rne (z.widen .fp32 acc) (product a0 b0))
    (product a1 b1)
  z.toIeeeBv .fp32 (z.convert .fp64 .fp32 z.rne sum)

/-- The float functions of the model in this theory. -/
def ieeeFunctions : UfFunctions where
  fpneg64 := z.fpneg .fp64
  fpneg32 := z.fpneg .fp32
  fpneg16 := z.fpneg .fp16
  bfneg16 x := x ^^^ 0x8000#16
  fpmac64 := z.fpmac .fp64
  fpmac32 := z.fpmac .fp32
  fpdotadd32to32 := z.dotadd (z.widen .fp32)
  fpdotadd16to32 := z.dotadd (z.widen .fp16)
  bfdotadd16to32 := z.dotadd z.widenBf16

/-! ### Values -/

inductive Value (z : Fpa) where
  | bv (w : ℕ) (x : BitVec w)
  | float (f : FpFormat) (x : z.Float f)
  | mode (r : z.Mode)

instance : Inhabited (Value z) := ⟨.mode z.rne⟩

variable {z}

namespace Value

/-- The value at a sort; expressions are well sorted, so the defaults do not matter. -/
def asBv (w : ℕ) : Value z → BitVec w
  | .bv v x => if h : v = w then h ▸ x else 0
  | _ => 0

def asFloat (f : FpFormat) : Value z → z.Float f
  | .float g x => if h : g = f then h ▸ x else z.ofIeeeBv f 0
  | _ => z.ofIeeeBv f 0

def asMode : Value z → z.Mode
  | .mode r => r
  | _ => z.rne

@[simp]
theorem asBv_bv {w : ℕ} (x : BitVec w) : asBv w (.bv w x : Value z) = x := dif_pos rfl

@[simp]
theorem asFloat_float {f : FpFormat} (x : z.Float f) : asFloat f (.float f x : Value z) = x :=
  dif_pos rfl

@[simp]
theorem asMode_mode (r : z.Mode) : asMode (.mode r : Value z) = r := rfl

end Value

open Value

/-- The theory's functions. -/
def applyOp (z : Fpa) (o : FpaOp) (vals : List (Value z)) : Value z :=
  let arg (i : ℕ) : Value z := vals.getD i default
  match o with
  | .bvXor => .bv 16 (asBv 16 (arg 0) ^^^ asBv 16 (arg 1))
  | .bvVal value width => .bv width (BitVec.ofNat width value)
  | .concat => .bv 32 (asBv 16 (arg 0) ++ asBv 16 (arg 1))
  | .rne => .mode z.rne
  | .mkFromIeeeBv f => .float f (z.ofIeeeBv f (asBv f.bits (arg 0)))
  | .mkToIeeeBv f => .bv f.bits (z.toIeeeBv f (asFloat f (arg 0)))
  | .neg f => .float f (z.neg f (asFloat f (arg 0)))
  | .add f => .float f (z.add f (asMode (arg 0)) (asFloat f (arg 1)) (asFloat f (arg 2)))
  | .mul f => .float f (z.mul f (asMode (arg 0)) (asFloat f (arg 1)) (asFloat f (arg 2)))
  | .fma f =>
      .float f (z.fma f (asMode (arg 0)) (asFloat f (arg 1)) (asFloat f (arg 2))
        (asFloat f (arg 3)))
  | .fpaToFpa src dst => .float dst (z.convert src dst (asMode (arg 0)) (asFloat src (arg 1)))

/-- An interpretation of the uninterpreted functions. -/
def applyUf (ufs : UfFunctions) (u : FpUf) (vals : List (Value z)) : Value z :=
  let bv (w i : ℕ) : BitVec w := asBv w (vals.getD i default)
  match u with
  | .fpneg64 => .bv 64 (ufs.fpneg64 (bv 64 0))
  | .fpneg32 => .bv 32 (ufs.fpneg32 (bv 32 0))
  | .fpneg16 => .bv 16 (ufs.fpneg16 (bv 16 0))
  | .bfneg16 => .bv 16 (ufs.bfneg16 (bv 16 0))
  | .fpmac64 => .bv 64 (ufs.fpmac64 (bv 64 0) (bv 64 1) (bv 64 2))
  | .fpmac32 => .bv 32 (ufs.fpmac32 (bv 32 0) (bv 32 1) (bv 32 2))
  | .fpdotadd32to32 =>
      .bv 32 (ufs.fpdotadd32to32 (bv 32 0) (bv 32 1) (bv 32 2) (bv 32 3) (bv 32 4))
  | .fpdotadd16to32 =>
      .bv 32 (ufs.fpdotadd16to32 (bv 32 0) (bv 16 1) (bv 16 2) (bv 16 3) (bv 16 4))
  | .bfdotadd16to32 =>
      .bv 32 (ufs.bfdotadd16to32 (bv 32 0) (bv 16 1) (bv 16 2) (bv 16 3) (bv 16 4))

/-- A model: the theory, the uninterpreted functions, and everything else. -/
def interp (z : Fpa) (ufs : UfFunctions) (rest : String → List (Value z) → Value z) :
    Z3Decl → List (Value z) → Value z
  | .uf u, vals => applyUf ufs u vals
  | .op o, vals => z.applyOp o vals
  | .other n _, vals => rest n vals

end Fpa

/-! ## The templates -/

open Fpa Value

/-- The first entry with a function's name is its own. -/
def bodyOf : FpUf → Z3Expr
  | .fpneg64 => fpnegBody .fp64
  | .fpneg32 => fpnegBody .fp32
  | .fpneg16 => fpnegBody .fp16
  | .bfneg16 => bfnegBody
  | .fpmac64 => fpmacBody .fp64
  | .fpmac32 => fpmacBody .fp32
  | .fpdotadd32to32 => dotaddBody (widen .fp32)
  | .fpdotadd16to32 => dotaddBody (widen .fp16)
  | .bfdotadd16to32 => dotaddBody bf16ToFp64

theorem mem_fpSubstituteList {entry : String × Z3Expr} :
    entry ∈ fpSubstituteList ↔ ∃ u : FpUf, entry = (u.name, bodyOf u) := by
  constructor
  · intro h
    simp only [fpSubstituteList, List.mem_cons, List.not_mem_nil, or_false] at h
    rcases h with rfl | rfl | rfl | rfl | rfl | rfl | rfl | rfl | rfl <;> exact ⟨_, rfl⟩
  · rintro ⟨u, rfl⟩
    cases u <;> simp [fpSubstituteList, bodyOf]

theorem FpUf.name_injective : Function.Injective FpUf.name := by
  intro u v h
  cases u <;> cases v <;> first | rfl | (exact absurd h (by decide))

theorem find_uf (u : FpUf) :
    (fpSubstituteList.find? fun entry => entry.1 == (Z3Decl.uf u).name) =
      some (u.name, bodyOf u) := by
  cases u <;> decide

theorem op_name_ne (o : FpaOp) (u : FpUf) : u.name ≠ o.name := by
  cases o <;> cases u <;> simp [FpaOp.name, FpUf.name]

/-- A template is made of the theory's functions and its function's holes. -/
theorem every_bodyOf (u : FpUf) :
    (bodyOf u).Every (fun decl _ => ∃ o, decl = .op o) (· < u.arity) := by
  cases u <;>
    simp [bodyOf, bfnegBody, fpnegBody, fpmacBody, dotaddBody, ArmSmeIla.widen, bf16ToFp64,
      mkBoundVar, Term.every_app, Term.every_var, FpUf.arity]

theorem templates_fp : Templates Z3Decl.name Z3Decl.arity fpSubstituteList where
  targetFree := by
    intro entry hentry
    rcases mem_fpSubstituteList.mp hentry with ⟨u, rfl⟩
    refine (every_bodyOf u).mono ?_ fun _ _ => trivial
    rintro _ _ ⟨o, rfl⟩ entry hentry
    rcases mem_fpSubstituteList.mp hentry with ⟨v, rfl⟩
    exact op_name_ne o v
  holes := by
    intro entry hentry decl hname
    rcases mem_fpSubstituteList.mp hentry with ⟨u, rfl⟩
    cases decl with
    | uf v =>
        obtain rfl : u = v := FpUf.name_injective hname
        exact (every_bodyOf u).mono (fun _ _ _ => trivial) fun _ hi => hi
    | op o => exact absurd hname (op_name_ne o u)
    | other n k => exact absurd hname.symm (n.2 u)

/-! ## Meaning -/

section Meaning

variable (z : Fpa) (ufs : UfFunctions) (rest : String → List (Value z) → Value z)

/-- A template means its function in the theory. -/
theorem eval_bodyOf (u : FpUf) (vals : List (Value z)) :
    (bodyOf u).eval (z.interp ufs rest) (fun i => vals.getD i default) =
      applyUf z.ieeeFunctions u vals := by
  cases u <;>
    simp [bodyOf, bfnegBody, fpnegBody, fpmacBody, dotaddBody, ArmSmeIla.widen, bf16ToFp64,
      mkBoundVar, Term.eval_app, Term.eval_var, interp, applyOp, applyUf, ieeeFunctions,
      Fpa.fpneg, Fpa.fpmac, Fpa.dotadd, Fpa.widen, Fpa.widenBf16, FpFormat.bits]

theorem find_other (decl : Z3Decl) (h : ∀ u, decl ≠ .uf u) :
    (fpSubstituteList.find? fun entry => entry.1 == decl.name) = none := by
  rw [List.find?_eq_none]
  intro entry hentry hname
  rcases mem_fpSubstituteList.mp hentry with ⟨u, rfl⟩
  cases decl with
  | uf v => exact h v rfl
  | op o => exact op_name_ne o u (beq_iff_eq.mp hname)
  | other n k => exact n.2 u (beq_iff_eq.mp hname).symm

/-- Reading the functions as their templates is interpreting them in the theory. -/
theorem templateInterp_eq :
    templateInterp Z3Decl.name fpSubstituteList (z.interp ufs rest) =
      z.interp z.ieeeFunctions rest := by
  funext decl vals
  unfold templateInterp
  cases decl with
  | uf u =>
      rw [find_uf]
      exact eval_bodyOf z ufs rest u vals
  | op o =>
      rw [find_other (.op o) nofun]
      rfl
  | other n k =>
      rw [find_other (.other n k) nofun]
      rfl

theorem eval_substituteFpUfs {astRoot : Z3Expr} (hroot : WellFormed Z3Decl.arity astRoot)
    (env : ℕ → Value z) :
    (substituteFpUfs astRoot).eval (z.interp ufs rest) env =
      astRoot.eval (z.interp z.ieeeFunctions rest) env := by
  rw [substituteFpUfs, substituteFuns_eq_plain,
    eval_plainSubstitute templates_fp (z.interp ufs rest) env hroot, templateInterp_eq]

end Meaning

/-- `substitute_fp_ufs` leaves none of the nine functions behind, and whatever
these were taken to mean, the new expression means what the old one does over
the arithmetic of the theory: single roundings for `fpmac`, double precision
inside the dot products, a flipped sign bit for `bfneg16`. -/
theorem substituteFpUfs_correct (z : Fpa) (astRoot : Z3Expr)
    (hroot : WellFormed Z3Decl.arity astRoot) :
    (substituteFpUfs astRoot).Every (fun decl _ => ∀ u, decl ≠ .uf u) (fun _ => True) ∧
      ∀ (ufs : UfFunctions) (rest : String → List (Value z) → Value z) (env : ℕ → Value z),
        (substituteFpUfs astRoot).eval (z.interp ufs rest) env =
          astRoot.eval (z.interp z.ieeeFunctions rest) env := by
  constructor
  · rw [substituteFpUfs, substituteFuns_eq_plain]
    refine (targetFree_plainSubstitute templates_fp astRoot).mono ?_ fun _ _ => trivial
    rintro _ _ hfree u rfl
    exact hfree (u.name, bodyOf u) (mem_fpSubstituteList.mpr ⟨u, rfl⟩) rfl
  · intro ufs rest env
    exact eval_substituteFpUfs z ufs rest hroot env

/-- Floats by their bits, as far as negation goes. -/
def negationFpa : Fpa where
  Float f := BitVec f.bits
  Mode := Unit
  rne := ()
  ofIeeeBv _ x := x
  toIeeeBv _ x := x
  neg f x := x ^^^ BitVec.twoPow f.bits (f.bits - 1)
  add _ _ x _ := x
  mul _ _ x _ := x
  fma _ _ x _ _ := x
  convert _ dst _ _ := (0 : BitVec dst.bits)

/-- `fpneg32(fpneg32(x))` at `x = 1.0`. -/
theorem substituteFpUfs_correct_fpneg32 :
    let neg (t : Z3Expr) : Z3Expr := .app (.uf .fpneg32) [t]
    let root : Z3Expr := neg (neg (mkBoundVar 0))
    ∀ ufs rest, (substituteFpUfs root).eval (negationFpa.interp ufs rest)
      (fun _ => .bv 32 0x3F800000#32) = .bv 32 0x3F800000#32 := by
  intro neg root ufs rest
  have hroot : WellFormed Z3Decl.arity root := by
    simp [WellFormed, root, neg, mkBoundVar, Term.every_app, Term.every_var, Z3Decl.arity,
      FpUf.arity]
  rw [(substituteFpUfs_correct negationFpa root hroot).2]
  simp [root, neg, mkBoundVar, Term.eval_app, Term.eval_var, interp, applyUf, ieeeFunctions,
    Fpa.fpneg, negationFpa, FpFormat.bits]
  decide

end ArmSmeIla
