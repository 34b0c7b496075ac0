import ArmSmeIla.Foundation.Simulation
import ArmSmeIla.Model.Driver
import ArmSmeIla.Properties.Faults
import ArmSmeIla.Properties.IeeeSubstitution

/-!
# What the verdicts of the test driver mean

A test passes when its names are those of instructions and the solver's model
is a run of these instructions that satisfies the set-up, is free of faults and
passes the verification. The summary counts tests by this.
-/

namespace ArmSmeIla

open Recording

variable {m : ArmSme}

/-! ## Names -/

theorem mem_instructions (i : Instr) : i ∈ instructions := by
  cases i with
  | movaT2V esize | movaV2T esize | ld1 esize | st1 esize => cases esize <;> decide
  | addha esize | addva esize | fmopa esize | fmops esize => cases esize <;> decide
  | psel esize | sclamp esize | uclamp esize => cases esize <;> decide
  | integerOuterProduct op esize => cases op <;> cases esize <;> decide
  | wideningOuterProduct op => cases op <;> decide
  | _ => decide

/-- No two instructions are created under one name. -/
theorem Instr.name_injective : Function.Injective Instr.name := by
  have hnodup : (instructions.map Instr.name).Nodup := by decide +kernel
  intro i j h
  exact List.inj_on_of_nodup_map hnodup (mem_instructions i) (mem_instructions j) h

theorem clean_findInstr {name : String} {i : Instr} :
    (findInstr name).Clean i ↔ name = i.name := by
  unfold findInstr
  cases hfind : instructions.find? fun instr => instr.name == name with
  | some j =>
      have hj : j.name = name := by simpa using List.find?_some hfind
      rw [clean_pure, ← hj]
      exact ⟨congrArg Instr.name, fun h => Instr.name_injective h⟩
  | none =>
      refine iff_of_false not_clean_throw ?_
      rintro rfl
      exact List.find?_eq_none.mp hfind i (mem_instructions i) (beq_self_eq_true i.name)

/-- The lookup succeeds exactly on the names of a list of instructions. -/
theorem clean_findInstrs {names : List String} {instrs : List Instr} :
    (findInstrs names).Clean instrs ↔ names = instrs.map Instr.name := by
  induction names generalizing instrs with
  | nil =>
      rw [findInstrs, clean_pure, eq_comm, eq_comm (a := ([] : List String)), List.map_eq_nil_iff]
  | cons name names ih =>
      rw [findInstrs, clean_bind]
      simp only [clean_bind, clean_pure, clean_findInstr, ih]
      constructor
      · rintro ⟨i, rfl, is, rfl, rfl⟩
        rfl
      · intro h
        cases instrs with
        | nil => cases h
        | cons i is =>
            obtain ⟨hname, hnames⟩ := List.cons_eq_cons.mp h
            exact ⟨i, hname, is, hnames, rfl⟩

/-! ## The unrolled path -/

/-- The functions by which the path is executed. -/
def Test.fp (test : Test m) (mdl : Z3Model m) : FpFunctions :=
  match test.subFn with
  | some subFn => subFn mdl.fp
  | none => mdl.fp

/-- The instructions with the inputs of their steps. -/
def labels (instrs : List Instr) (mdl : Z3Model m) : List (Label m) :=
  instrs.mapIdx fun k i => (i, mdl.inputs k)

@[simp]
theorem length_labels (instrs : List Instr) (mdl : Z3Model m) :
    (labels instrs mdl).length = instrs.length :=
  List.length_mapIdx

theorem getElem_labels {instrs : List Instr} {mdl : Z3Model m} {k : ℕ}
    (hk : k < (labels instrs mdl).length) :
    (labels instrs mdl)[k] =
      (instrs.get ⟨k, length_labels instrs mdl ▸ hk⟩, mdl.inputs k) :=
  List.getElem_mapIdx ..

theorem tr_iff {test : Test m} {instrs : List Instr} {mdl : Z3Model m} :
    test.tr instrs mdl ↔ ∀ (k : ℕ) (hk : k < (labels instrs mdl).length),
      Step (test.fp mdl) (mdl.states k) (labels instrs mdl)[k] (mdl.states (k + 1)) := by
  have hunroll : test.tr instrs mdl ↔ unrollPathConn instrs { mdl with fp := test.fp mdl } := by
    unfold Test.tr Test.fp
    cases test.subFn <;> exact Iff.rfl
  rw [hunroll]
  constructor
  · intro h k hk
    rw [length_labels] at hk
    rw [getElem_labels]
    exact h k instrs[k] (List.getElem?_eq_getElem hk)
  · intro h k i hi
    obtain ⟨hk, rfl⟩ := List.getElem?_eq_some_iff.mp hi
    have hstep := h k ((length_labels instrs mdl).symm ▸ hk)
    rwa [getElem_labels] at hstep

/-- The states of the model are those the path goes through. -/
theorem path_of_tr {test : Test m} {instrs : List Instr} {mdl : Z3Model m}
    (h : test.tr instrs mdl) {k : ℕ} (hk : k ≤ instrs.length) :
    Path (test.fp mdl) (mdl.states 0) ((labels instrs mdl).take k) (mdl.states k) :=
  Runs.of_sequence (tr_iff.mp h) (hk.trans_eq (length_labels instrs mdl).symm)

theorem stateAt_of_tr {test : Test m} {instrs : List Instr} {mdl : Z3Model m}
    (h : test.tr instrs mdl) {k : ℕ} (hk : k ≤ instrs.length) :
    stateAt (test.fp mdl) (mdl.states 0) (labels instrs mdl) k = mdl.states k :=
  (eq_execAll_of_path (path_of_tr h hk)).symm

/-! ## The substitution -/

/-- An expression over the unrolled states and inputs has the value 1 exactly
where the constraint holds. -/
def Denotes (z : Fpa)
    (vars : (ℕ → State m) → (ℕ → Inputs m) → String → List (Fpa.Value z) → Fpa.Value z)
    (root : Z3Expr) (c : Constraint m) : Prop :=
  ∀ (mdl : Z3Model m) (ufs : UfFunctions), ufs.toFpFunctions = mdl.fp → ∀ env,
    root.eval (z.interp ufs (vars mdl.states mdl.inputs)) env = .bv 1 1 ↔ c mdl

/-- With `substitute_fp_ufs` as its callback, a test constrains the path by the
functions of the theory. -/
theorem Denotes.substituteFpUfs {z : Fpa}
    {vars : (ℕ → State m) → (ℕ → Inputs m) → String → List (Fpa.Value z) → Fpa.Value z}
    {root : Z3Expr} {test : Test m} {instrs : List Instr}
    (h : Denotes z vars root (unrollPathConn instrs)) (hroot : WellFormed Z3Decl.arity root)
    (hsub : test.subFn = some fun _ => z.ieeeFunctions.toFpFunctions) :
    Denotes z vars (ArmSmeIla.substituteFpUfs root) (test.tr instrs) := by
  intro mdl ufs _ env
  rw [eval_substituteFpUfs z ufs _ hroot env, Test.tr, hsub]
  exact h { mdl with fp := z.ieeeFunctions.toFpFunctions } z.ieeeFunctions rfl env

/-! ## One test -/

/-- What a model shows when the test passes on it. -/
structure PassesOn (test : Test m) (instrs : List Instr) (setup : Constraint m)
    (mdl : Z3Model m) : Prop where
  names : test.instrNames = instrs.map Instr.name
  setupFn : test.setupFn.Clean setup
  setup : setup mdl
  path : Path (test.fp mdl) (mdl.states 0) (labels instrs mdl) (mdl.states instrs.length)
  start : (mdl.states 0).faults = 0
  noFaults : ∀ {a l b}, Runs.StepOf (Step (test.fp mdl)) (mdl.states 0) (labels instrs mdl)
    (mdl.states instrs.length) a l b → ¬ StepFaults a l.2 l.1
  verifyFn : (test.verifyFn mdl).Clean ()

/-- Some model that the solver finds passes. -/
def Passes (z3 : Z3Solver m) (test : Test m) : Prop :=
  ∃ instrs setup mdl, z3.check (test.query instrs setup) = .sat mdl ∧
    PassesOn test instrs setup mdl

/-- The scan of the states of a path finds nothing exactly when no step faults. -/
theorem scan_iff {test : Test m} {instrs : List Instr} {mdl : Z3Model m}
    (h : test.tr instrs mdl) (hstart : (mdl.states 0).faults = 0) :
    (∀ step ∈ List.range (1 + instrs.length), (mdl.states step).faults = 0) ↔
      ∀ {a l b}, Runs.StepOf (Step (test.fp mdl)) (mdl.states 0) (labels instrs mdl)
        (mdl.states instrs.length) a l b → ¬ StepFaults a l.2 l.1 := by
  have hpath := path_of_tr h le_rfl
  rw [List.take_of_length_le (length_labels instrs mdl).le] at hpath
  have hnone := (exists_faults_ne_zero_iff (labels instrs mdl) hstart).trans
    (numFaults_pos_iff hpath)
  rw [length_labels] at hnone
  constructor
  · intro hscan a l b hstep hfaults
    obtain ⟨step, hlt, hne⟩ := hnone.mpr ⟨a, l, b, hstep, hfaults⟩
    rw [stateAt_of_tr h (by omega)] at hne
    exact hne (hscan step (List.mem_range.mpr hlt))
  · intro hfree step hmem
    have hlt := List.mem_range.mp hmem
    by_contra hne
    rw [← stateAt_of_tr h (by omega)] at hne
    obtain ⟨a, l, b, hstep, hfaults⟩ := hnone.mp ⟨step, hlt, hne⟩
    exact hfree hstep hfaults

theorem clean_scan {mdl : Z3Model m} {steps : List ℕ} :
    (steps.forM fun step =>
      let faultFound := (mdl.states step).faults != 0
      if faultFound then recordFailure "FAULT OCCURRED!!!" else pure ()).Clean () ↔
      ∀ step ∈ steps, (mdl.states step).faults = 0 := by
  rw [clean_forM]
  refine forall₂_congr fun step _ => ?_
  dsimp only
  split
  case isTrue hfound => exact iff_of_false not_clean_record (bne_iff_ne.mp hfound)
  case isFalse hfound => exact iff_of_true (clean_pure.mpr rfl) (by simpa using hfound)

/-- The test records no failure and throws nothing exactly when it passes. -/
theorem clean_attempt (z3 : Z3Solver m) (test : Test m) :
    (test.attempt z3).Clean () ↔ Passes z3 test := by
  unfold Test.attempt
  simp only [clean_bind, clean_findInstrs]
  constructor
  · rintro ⟨instrs, hnames, setup, hsetup, hsolved⟩
    cases hcheck : z3.check (test.query instrs setup) with
    | sat mdl =>
        obtain ⟨htr, hholds, hstart⟩ := z3.sat_sound hcheck
        rw [hcheck] at hsolved
        obtain ⟨⟨⟩, hverify, hscan⟩ := clean_bind.mp hsolved
        rw [clean_scan, hnames, List.length_map] at hscan
        have hpath := path_of_tr htr le_rfl
        rw [List.take_of_length_le (length_labels instrs mdl).le] at hpath
        exact ⟨instrs, setup, mdl, hcheck, hnames, hsetup, hholds, hpath, hstart,
          (scan_iff htr hstart).mp hscan, hverify⟩
    | unsat =>
        rw [hcheck] at hsolved
        exact absurd hsolved not_clean_record
    | unknown =>
        rw [hcheck] at hsolved
        exact absurd hsolved not_clean_record
  · rintro ⟨instrs, setup, mdl, hcheck, passes⟩
    obtain ⟨htr, -, -⟩ := z3.sat_sound hcheck
    refine ⟨instrs, passes.names, setup, passes.setupFn, ?_⟩
    rw [hcheck]
    refine clean_bind.mpr ⟨(), passes.verifyFn, ?_⟩
    rw [clean_scan, passes.names, List.length_map]
    exact (scan_iff htr passes.start).mpr passes.noFaults

/-! ## All tests -/

/-- What a test adds to `g_test_results`. -/
def result (z3 : Z3Solver m) (test : Test m) : TestResult :=
  ⟨test.testName, match (test.attempt z3).outcome with
    | .ok () => !decide ((test.attempt z3).failures.length > 0)
    | .error _ => false⟩

/-- What a test writes to `std::cerr`. -/
def errorLines (z3 : Z3Solver m) (test : Test m) : List String :=
  (test.attempt z3).failures.map (" (!) FAIL: " ++ ·) ++
    match (test.attempt z3).outcome with
    | .ok () => []
    | .error e => ["ERROR: " ++ e]

theorem result_passed_iff (z3 : Z3Solver m) (test : Test m) :
    (result z3 test).passed = true ↔ Passes z3 test := by
  rw [← clean_attempt, result, Clean]
  cases (test.attempt z3).outcome with
  | ok u => simp
  | error e => simp

theorem errorLines_eq_nil_iff (z3 : Z3Solver m) (test : Test m) :
    errorLines z3 test = [] ↔ Passes z3 test := by
  rw [← clean_attempt, errorLines, Clean]
  cases (test.attempt z3).outcome with
  | ok u => simp
  | error e => simp

theorem check_testResults (z3 : Z3Solver m) (test : Test m) (session : Session) :
    (check z3 test session).testResults = session.testResults ++ [result z3 test] := rfl

theorem check_cerr (z3 : Z3Solver m) (test : Test m) (session : Session) :
    (check z3 test session).cerr = session.cerr ++ errorLines z3 test :=
  List.append_assoc ..

/-- A session ends with what its tests add, each by itself. -/
theorem foldl_check (z3 : (m : ArmSme) → Z3Solver m) (tests : List ((m : ArmSme) × Test m))
    (session : Session) :
    let last := tests.foldl (fun session test => check (z3 test.1) test.2 session) session
    last.testResults = session.testResults ++ tests.map (fun test => result (z3 test.1) test.2) ∧
      last.cerr = session.cerr ++ tests.flatMap fun test => errorLines (z3 test.1) test.2 := by
  induction tests generalizing session with
  | nil => exact ⟨(List.append_nil _).symm, (List.append_nil _).symm⟩
  | cons test tests ih =>
      obtain ⟨hresults, hcerr⟩ := ih (check (z3 test.1) test.2 session)
      constructor
      · rw [List.foldl_cons, hresults, check_testResults, List.append_assoc]
        rfl
      · rw [List.foldl_cons, hcerr, check_cerr, List.append_assoc, List.flatMap_cons]

theorem foldl_countResult (results : List TestResult) (counts : ℕ × ℕ) :
    results.foldl countResult counts = (counts.1 + results.countP (·.passed),
      counts.2 + results.countP fun result => !result.passed) := by
  induction results generalizing counts with
  | nil => rfl
  | cons result results ih =>
      rw [List.foldl_cons, ih, List.countP_cons, List.countP_cons, countResult]
      cases result.passed with
      | true => simp [Nat.add_assoc, Nat.add_comm 1]
      | false => simp [Nat.add_assoc, Nat.add_comm 1]

theorem testSummary_total (results : List TestResult) :
    (testSummary results).1 + (testSummary results).2 = results.length := by
  rw [testSummary, foldl_countResult, List.length_eq_countP_add_countP fun r => r.passed]
  simp

theorem testSummary_failed_iff (results : List TestResult) :
    (testSummary results).2 = 0 ↔ ∀ r ∈ results, r.passed = true := by
  rw [testSummary, foldl_countResult]
  simp

/-- The results of a session are those of its tests, in order; no test has an
influence on another one. The summary counts every test once. Every test having
a model that passes, the summary finding no failed test, and `std::cerr` staying
empty are the same. -/
theorem session_verdicts (z3 : (m : ArmSme) → Z3Solver m) (tests : List ((m : ArmSme) × Test m)) :
    let session := runTests z3 tests
    let results := session.testResults
    results.map (·.testName) = tests.map (·.2.testName) ∧
      (∀ (k : ℕ) (test : (m : ArmSme) × Test m), tests[k]? = some test →
        ∃ r, results[k]? = some r ∧ (r.passed = true ↔ Passes (z3 test.1) test.2)) ∧
      (testSummary results).1 + (testSummary results).2 = tests.length ∧
      ((testSummary results).2 = 0 ↔ ∀ test ∈ tests, Passes (z3 test.1) test.2) ∧
      (session.cerr = [] ↔ ∀ test ∈ tests, Passes (z3 test.1) test.2) := by
  intro session results
  obtain ⟨hresults, hcerr⟩ := foldl_check z3 tests ⟨0, [], []⟩
  replace hresults : results = tests.map fun test => result (z3 test.1) test.2 := hresults
  replace hcerr : session.cerr = tests.flatMap fun test => errorLines (z3 test.1) test.2 := hcerr
  refine ⟨?_, ?_, ?_, ?_, ?_⟩
  · rw [hresults, List.map_map]
    rfl
  · intro k test htest
    refine ⟨result (z3 test.1) test.2, ?_, result_passed_iff _ _⟩
    rw [hresults, List.getElem?_map, htest]
    rfl
  · rw [testSummary_total, hresults, List.length_map]
  · rw [testSummary_failed_iff, hresults, List.forall_mem_map]
    exact forall₂_congr fun test _ => result_passed_iff (z3 test.1) test.2
  · rw [hcerr, List.flatMap_eq_nil_iff]
    exact forall₂_congr fun test _ => errorLines_eq_nil_iff (z3 test.1) test.2

end ArmSmeIla
