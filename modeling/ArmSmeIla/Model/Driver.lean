import ArmSmeIla.Foundation.Recording
import ArmSmeIla.Model.Check

/-!
# The test driver

`CHECK` and `print_test_summary` (`test_helpers.cc`), with the names under
which `AddInstructions` (`instr.cc`) creates the instructions. Z3 is a
parameter, and a constraint is the set of assignments that it allows: what an
assignment gives to the variables of the unrolled path and to the uninterpreted
functions. A set-up or verification callback is what it does to the driver.
-/

namespace ArmSmeIla

variable {m : ArmSme}

/-! ## Instruction names -/

def ElementSize.suffix : ElementSize → String
  | .byte => ".B"
  | .half => ".H"
  | .word => ".S"
  | .double => ".D"
  | .quad => ".Q"

def IntegerOuterProduct.name : IntegerOuterProduct → String
  | .smopa => "SMOPA"
  | .smops => "SMOPS"
  | .sumopa => "SUMOPA"
  | .sumops => "SUMOPS"
  | .umopa => "UMOPA"
  | .umops => "UMOPS"
  | .usmopa => "USMOPA"
  | .usmops => "USMOPS"

def WideningOuterProduct.name : WideningOuterProduct → String
  | .bfmopa => "BFMOPA (bf16->fp32)"
  | .bfmops => "BFMOPS (bf16->fp32)"
  | .fmopa => "FMOPA (fp16->fp32)"
  | .fmops => "FMOPS (fp16->fp32)"

namespace AccSize

def suffix (esize : AccSize) : String := (esize : ElementSize).suffix

/-- The sizes of operands and result. -/
def wideningSuffix : AccSize → String
  | .word => " (8b->32b)"
  | .double => " (16b->64b)"

def floatSuffix : AccSize → String
  | .word => " (fp32)"
  | .double => " (fp64)"

end AccSize

def LaneSize.suffix (esize : LaneSize) : String := (esize : ElementSize).suffix

def Instr.name : Instr → String
  | .smstart => "SMSTART"
  | .smstop => "SMSTOP"
  | .movaT2V esize => "MOVA_T2V" ++ esize.suffix
  | .movaV2T esize => "MOVA_V2T" ++ esize.suffix
  | .zero => "ZERO"
  | .addha esize => "ADDHA" ++ esize.suffix
  | .addva esize => "ADDVA" ++ esize.suffix
  | .integerOuterProduct op esize => op.name ++ esize.wideningSuffix
  | .addspl => "ADDSPL"
  | .addsvl => "ADDSVL"
  | .rdsvl => "RDSVL"
  | .wideningOuterProduct op => op.name
  | .fmopa esize => "FMOPA" ++ esize.floatSuffix
  | .fmops esize => "FMOPS" ++ esize.floatSuffix
  | .ld1 esize => "LD1" ++ esize.suffix
  | .st1 esize => "ST1" ++ esize.suffix
  | .ldr => "LDR"
  | .str => "STR"
  | .psel esize => "PSEL" ++ esize.suffix
  | .revd => "REVD.Q"
  | .sclamp esize => "SCLAMP" ++ esize.suffix
  | .uclamp esize => "UCLAMP" ++ esize.suffix

def elementSizes : List ElementSize := [.byte, .half, .word, .double, .quad]

def accSizes : List AccSize := [.word, .double]

def laneSizes : List LaneSize := [.byte, .half, .word, .double]

def instList : List IntegerOuterProduct :=
  [.smopa, .smops, .sumopa, .sumops, .umopa, .umops, .usmopa, .usmops]

/-- `m.instr(i)`, in the order of `AddInstructions`. -/
def instructions : List Instr := List.flatten
  [[.smstart, .smstop],
   elementSizes.map .movaT2V, elementSizes.map .movaV2T, [.zero],
   accSizes.map .addha, accSizes.map .addva,
   instList.flatMap fun op => accSizes.map (.integerOuterProduct op),
   [.addspl, .addsvl, .rdsvl],
   [.bfmopa, .bfmops, .fmopa, .fmops].map .wideningOuterProduct,
   accSizes.flatMap fun esize => [.fmopa esize, .fmops esize],
   elementSizes.map .ld1, elementSizes.map .st1, [.ldr, .str],
   laneSizes.map .psel, [.revd], laneSizes.map .sclamp, laneSizes.map .uclamp]

/-! ## Solving -/

/-- An assignment to the variables of all steps and to the uninterpreted
functions; what a model of Z3 leaves open is completed. -/
structure Z3Model (m : ArmSme) where
  states : ℕ → State m
  inputs : ℕ → Inputs m
  fp : FpFunctions

abbrev Constraint (m : ArmSme) : Type := Z3Model m → Prop

inductive CheckResult (m : ArmSme) where
  | sat (mdl : Z3Model m)
  | unsat
  | unknown

/-- `solver.check()`, right whenever it answers `sat` or `unsat`. -/
structure Z3Solver (m : ArmSme) where
  check : Constraint m → CheckResult m
  sat_sound : ∀ {c mdl}, check c = .sat mdl → c mdl
  unsat_sound : ∀ {c}, check c = .unsat → ∀ mdl, ¬ c mdl

/-- `UnrollPathConn(instrs, 0)`: the instructions decode one after the other,
and each step's updates give the states of the next. -/
def unrollPathConn (instrs : List Instr) : Constraint m := fun mdl =>
  ∀ k i, instrs[k]? = some i →
    decode i (mdl.inputs k) (mdl.states k) = true ∧
      mdl.states (k + 1) = exec mdl.fp i (mdl.inputs k) (mdl.states k)

/-! ## One test -/

/-- `record_failure` records a message; exceptions carry one. -/
abbrev CheckM : Type → Type := Recording String String

def recordFailure (msg : String) : CheckM Unit := .record msg

/-- The arguments of `CHECK`. -/
structure Test (m : ArmSme) where
  testName : String
  instrNames : List String
  /-- Adds constraints. -/
  setupFn : CheckM (Constraint m)
  verifyFn : Z3Model m → CheckM Unit
  /-- What a substitution puts for the uninterpreted functions. -/
  subFn : Option (FpFunctions → FpFunctions)

def findInstr (name : String) : CheckM Instr :=
  match instructions.find? fun instr => instr.name == name with
  | some instr => pure instr
  | none => .throw ("Instruction '" ++ name ++ "' not found")

def findInstrs : List String → CheckM (List Instr)
  | [] => pure []
  | name :: names => do
      let instr ← findInstr name
      let instrs ← findInstrs names
      pure (instr :: instrs)

/-- The unrolled path, after the substitution if there is one. -/
def Test.tr (test : Test m) (instrs : List Instr) : Constraint m :=
  match test.subFn with
  | some subFn => fun mdl => unrollPathConn instrs { mdl with fp := subFn mdl.fp }
  | none => unrollPathConn instrs

/-- All that is given to the solver; `faults` starts at zero. -/
def Test.query (test : Test m) (instrs : List Instr) (setup : Constraint m) : Constraint m :=
  fun mdl => test.tr instrs mdl ∧ setup mdl ∧ (mdl.states 0).faults = 0

/-- What `CHECK` tries. -/
def Test.attempt (test : Test m) (z3 : Z3Solver m) : CheckM Unit := do
  let instrs ← findInstrs test.instrNames
  let setup ← test.setupFn
  match z3.check (test.query instrs setup) with
  | .sat mdl => do
      test.verifyFn mdl
      (List.range (1 + test.instrNames.length)).forM fun step =>
        let faultFound := (mdl.states step).faults != 0
        if faultFound then recordFailure "FAULT OCCURRED!!!" else pure ()
  | .unsat => recordFailure "Solver returned UNSAT - no valid execution path"
  | .unknown => recordFailure "Solver returned UNKNOWN/timeout"

/-! ## All tests -/

structure TestResult where
  testName : String
  passed : Bool
deriving DecidableEq, Repr

/-- What outlives a test: `g_current_failures`, `g_test_results` and the lines
on `std::cerr`. -/
structure Session where
  currentFailures : ℕ
  testResults : List TestResult
  cerr : List String

/-- `CHECK`: the count of failures starts anew, and an exception fails the test. -/
def check (z3 : Z3Solver m) (test : Test m) (session : Session) : Session :=
  let run := test.attempt z3
  let failures := run.failures.map (" (!) FAIL: " ++ ·)
  let error := match run.outcome with
    | .ok () => []
    | .error e => ["ERROR: " ++ e]
  let passed := match run.outcome with
    | .ok () => !decide (run.failures.length > 0)
    | .error _ => false
  { currentFailures := run.failures.length
    testResults := session.testResults ++ [⟨test.testName, passed⟩]
    cerr := session.cerr ++ failures ++ error }

/-- A program of tests, each on its own model. -/
def runTests (z3 : (m : ArmSme) → Z3Solver m) (tests : List ((m : ArmSme) × Test m)) : Session :=
  tests.foldl (fun session test => check (z3 test.1) test.2 session) ⟨0, [], []⟩

/-- The counts `passed` and `failed` after one more result. -/
def countResult (counts : ℕ × ℕ) (result : TestResult) : ℕ × ℕ :=
  if result.passed then (counts.1 + 1, counts.2) else (counts.1, counts.2 + 1)

/-- `print_test_summary`: how many tests passed and how many failed. All tests
passed if none failed. -/
def testSummary (results : List TestResult) : ℕ × ℕ := results.foldl countResult (0, 0)

end ArmSmeIla
