import ArmSmeIla.Model.Instructions

/-!
# The fault scan of the test driver

`CHECK` (`test_helpers.cc`) unrolls a path of instructions from step 0, fixes
`faults` to zero there, and after a `sat` answer compares `faults` at every
step with zero. The values of a model at a step are those of the state the
path has reached.
-/

namespace ArmSmeIla

variable {m : ArmSme}

/-- The state at a step of the unrolled path. -/
def stateAt (fp : FpFunctions) (s : State m) (ls : List (Label m)) (step : ℕ) : State m :=
  execAll fp (ls.take step) s

/-- Ensures that no fault occurred throughout the execution pipeline; there is
one extra step for the result. `record_failure` counts in `g_current_failures`. -/
def checkForFaults (fp : FpFunctions) (s : State m) (ls : List (Label m))
    (currentFailures : ℕ) : ℕ :=
  (List.range (1 + ls.length)).foldl
    (fun failures step =>
      let faultFound := (stateAt fp s ls step).faults != 0
      if faultFound then failures + 1 else failures) currentFailures

end ArmSmeIla
