import ArmSmeIla.Model.State
import ArmSmeIla.Model.Substitute

/-!
# The IEEE templates

`substitute_fp_ufs` (`test_helpers.cc`): the nine uninterpreted functions of the
model and, for each, a template over Z3's floating-point theory. The rounding
mode of the context is set to RNE first, so every rounding operation takes it.
-/

namespace ArmSmeIla

/-! ## Declarations -/

/-- The sorts `fpa_sort<16>()`, `fpa_sort<32>()` and `fpa_sort<64>()`. -/
inductive FpFormat where
  | fp16
  | fp32
  | fp64
deriving DecidableEq, Repr

def FpFormat.bits : FpFormat → ℕ
  | .fp16 => 16
  | .fp32 => 32
  | .fp64 => 64

/-- The `FuncRef`s of `ArmSme`. -/
inductive FpUf where
  | fpneg64
  | fpneg32
  | fpneg16
  | bfneg16
  | fpmac64
  | fpmac32
  | fpdotadd32to32
  | fpdotadd16to32
  | bfdotadd16to32
deriving DecidableEq, Repr

namespace FpUf

def name : FpUf → String
  | fpneg64 => "fpneg64"
  | fpneg32 => "fpneg32"
  | fpneg16 => "fpneg16"
  | bfneg16 => "bfneg16"
  | fpmac64 => "fpmac64"
  | fpmac32 => "fpmac32"
  | fpdotadd32to32 => "fpdotadd32to32"
  | fpdotadd16to32 => "fpdotadd16to32"
  | bfdotadd16to32 => "bfdotadd16to32"

def arity : FpUf → ℕ
  | fpneg64 | fpneg32 | fpneg16 | bfneg16 => 1
  | fpmac64 | fpmac32 => 3
  | fpdotadd32to32 | fpdotadd16to32 | bfdotadd16to32 => 5

end FpUf

/-- The Z3 functions that the templates are made of. -/
inductive FpaOp where
  | bvXor
  | bvVal (value width : ℕ)
  | concat
  | rne
  | mkFromIeeeBv (f : FpFormat)
  | mkToIeeeBv (f : FpFormat)
  | neg (f : FpFormat)
  | add (f : FpFormat)
  | mul (f : FpFormat)
  | fma (f : FpFormat)
  | fpaToFpa (src dst : FpFormat)
deriving DecidableEq, Repr

namespace FpaOp

def name : FpaOp → String
  | bvXor => "bvxor"
  | bvVal _ _ => "bv"
  | concat => "concat"
  | rne => "roundNearestTiesToEven"
  | mkFromIeeeBv _ | fpaToFpa _ _ => "to_fp"
  | mkToIeeeBv _ => "fp.to_ieee_bv"
  | neg _ => "fp.neg"
  | add _ => "fp.add"
  | mul _ => "fp.mul"
  | fma _ => "fp.fma"

def arity : FpaOp → ℕ
  | bvVal _ _ | rne => 0
  | mkFromIeeeBv _ | mkToIeeeBv _ | neg _ => 1
  | bvXor | concat | fpaToFpa _ _ => 2
  | add _ | mul _ => 3
  | fma _ => 4

end FpaOp

/-- Declarations in an unrolled path. ILAng makes the others; none of them is
called like one of the functions. -/
inductive Z3Decl where
  | uf (u : FpUf)
  | op (o : FpaOp)
  | other (name : { n : String // ∀ u : FpUf, n ≠ u.name }) (arity : ℕ)
deriving DecidableEq

namespace Z3Decl

def name : Z3Decl → String
  | uf u => u.name
  | op o => o.name
  | other n _ => n

def arity : Z3Decl → ℕ
  | uf u => u.arity
  | op o => o.arity
  | other _ k => k

end Z3Decl

abbrev Z3Expr : Type := Term Z3Decl

/-! ## Templates -/

namespace Z3Expr

@[simp]
def fromIeee (f : FpFormat) (x : Z3Expr) : Z3Expr := .app (.op (.mkFromIeeeBv f)) [x]

@[simp]
def toIeee (f : FpFormat) (x : Z3Expr) : Z3Expr := .app (.op (.mkToIeeeBv f)) [x]

@[simp]
def rm : Z3Expr := .app (.op .rne) []

@[simp]
def neg (f : FpFormat) (x : Z3Expr) : Z3Expr := .app (.op (.neg f)) [x]

@[simp]
def add (f : FpFormat) (x y : Z3Expr) : Z3Expr := .app (.op (.add f)) [rm, x, y]

@[simp]
def mul (f : FpFormat) (x y : Z3Expr) : Z3Expr := .app (.op (.mul f)) [rm, x, y]

@[simp]
def fma (f : FpFormat) (x y z : Z3Expr) : Z3Expr := .app (.op (.fma f)) [rm, x, y, z]

@[simp]
def fpaToFpa (src dst : FpFormat) (x : Z3Expr) : Z3Expr := .app (.op (.fpaToFpa src dst)) [rm, x]

@[simp]
def bvVal (value width : ℕ) : Z3Expr := .app (.op (.bvVal value width)) []

@[simp]
def xor (x y : Z3Expr) : Z3Expr := .app (.op .bvXor) [x, y]

@[simp]
def concat (x y : Z3Expr) : Z3Expr := .app (.op .concat) [x, y]

end Z3Expr

open Z3Expr

/-- Can just flip the sign bit. -/
def bfnegBody : Z3Expr := xor (mkBoundVar 0) (bvVal 0x8000 16)

def fpnegBody (f : FpFormat) : Z3Expr := toIeee f (neg f (fromIeee f (mkBoundVar 0)))

/-- `acc + a * b`, with one rounding. -/
def fpmacBody (f : FpFormat) : Z3Expr :=
  toIeee f (fma f (fromIeee f (mkBoundVar 1)) (fromIeee f (mkBoundVar 2))
    (fromIeee f (mkBoundVar 0)))

/-- Widens all to double precision. -/
def widen (f : FpFormat) (x : Z3Expr) : Z3Expr := fpaToFpa f .fp64 (fromIeee f x)

/-- A `bf16` is the upper half of a single. -/
def bf16ToFp64 (x : Z3Expr) : Z3Expr :=
  fpaToFpa .fp32 .fp64 (fromIeee .fp32 (concat x (bvVal 0 16)))

/-- `acc + a0 * b0 + a1 * b1`, rounded to single precision at the end. -/
def dotaddBody (widenArg : Z3Expr → Z3Expr) : Z3Expr :=
  let acc := widen .fp32 (mkBoundVar 0)
  let a0 := widenArg (mkBoundVar 1)
  let a1 := widenArg (mkBoundVar 2)
  let b0 := widenArg (mkBoundVar 3)
  let b1 := widenArg (mkBoundVar 4)
  let sum := add .fp64 (add .fp64 acc (mul .fp64 a0 b0)) (mul .fp64 a1 b1)
  toIeee .fp32 (fpaToFpa .fp64 .fp32 sum)

def fpSubstituteList : SubstituteList Z3Decl :=
  [(FpUf.bfneg16.name, bfnegBody),
    (FpUf.fpneg16.name, fpnegBody .fp16),
    (FpUf.fpneg32.name, fpnegBody .fp32),
    (FpUf.fpneg64.name, fpnegBody .fp64),
    (FpUf.fpmac32.name, fpmacBody .fp32),
    (FpUf.fpmac64.name, fpmacBody .fp64),
    (FpUf.fpdotadd32to32.name, dotaddBody (widen .fp32)),
    (FpUf.fpdotadd16to32.name, dotaddBody (widen .fp16)),
    (FpUf.bfdotadd16to32.name, dotaddBody bf16ToFp64)]

/-- `substitute_fp_ufs`. -/
def substituteFpUfs (astRoot : Z3Expr) : Z3Expr :=
  substituteFuns Z3Decl.name fpSubstituteList astRoot

end ArmSmeIla
