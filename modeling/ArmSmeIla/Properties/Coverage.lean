import ArmSmeIla.Architecture.Locations
import ArmSmeIla.Properties.Verdicts

/-!
# What a test covers

Which lists of instructions have a run at all, and when the one run that the
solver shows speaks for every run that the set-up allows.
-/

namespace ArmSmeIla

open Recording Loc

variable {m : ArmSme}

/-! ## Lists with a run -/

def Instr.needsModes : Instr → Bool
  | .smstart | .smstop | .addspl | .addsvl | .rdsvl => false
  | .psel _ | .revd | .sclamp _ | .uclamp _ => false
  | _ => true

/-- The last `SMSTART` or `SMSTOP` of a list. -/
def lastModeChange (instrs : List Instr) : Option Instr :=
  (instrs.filter fun i => i.writes .modes).getLast?

theorem pstateZa_of_decode {i : Instr} {inp : Inputs m} {s : State m}
    (h : decode i inp s = true) (hi : i.needsModes = true) : s.pstateZa = true := by
  have hmodes := (Bool.and_eq_true_iff.mp h).1
  cases i with
  | zero | ldr | str => exact hmodes
  | smstart | smstop | addspl | addsvl | rdsvl | psel | revd | sclamp | uclamp => cases hi
  | _ => exact (Bool.and_eq_true_iff.mp hmodes).2

theorem decode_of_modes {i : Instr} {inp : Inputs m} {s : State m} (hcmd : inp.cmd = tempOpcode)
    (hmodes : i.needsModes = true → s.pstateSm = true ∧ s.pstateZa = true) :
    decode i inp s = true := by
  rw [decode, hcmd, beq_self_eq_true, Bool.and_true]
  cases i with
  | smstart | smstop | addspl | addsvl | rdsvl | psel | revd | sclamp | uclamp => rfl
  | zero | ldr | str => exact (hmodes rfl).2
  | _ => exact Bool.and_eq_true_iff.mpr (hmodes rfl)

theorem lastModeChange_append (instrs : List Instr) (i : Instr) :
    lastModeChange (instrs ++ [i]) =
      if i.writes .modes then some i else lastModeChange instrs := by
  unfold lastModeChange
  rw [List.filter_append]
  cases hi : i.writes .modes with
  | true => simp [hi]
  | false => simp [hi]

/-- Off after an `SMSTOP`; otherwise on, if they were on at the start. -/
theorem modes_execAll (fp : FpFunctions) (s : State m) (ls : List (Label m)) :
    (lastModeChange (ls.map (·.1)) = some .smstop → (execAll fp ls s).pstateZa = false) ∧
      (lastModeChange (ls.map (·.1)) ≠ some .smstop →
        s.pstateSm = true → s.pstateZa = true →
          (execAll fp ls s).pstateSm = true ∧ (execAll fp ls s).pstateZa = true) := by
  induction ls using List.reverseRecOn with
  | nil => exact ⟨nofun, fun _ hsm hza => ⟨hsm, hza⟩⟩
  | append_singleton ls l ih =>
      obtain ⟨i, inp⟩ := l
      have hexec : execAll fp (ls ++ [(i, inp)]) s = exec fp i inp (execAll fp ls s) :=
        List.foldl_append
      rw [hexec, List.map_append, List.map_singleton, lastModeChange_append]
      by_cases hstart : i = .smstart
      · subst hstart
        exact ⟨nofun, fun _ _ _ => ⟨rfl, rfl⟩⟩
      by_cases hstop : i = .smstop
      · subst hstop
        exact ⟨fun _ => rfl, fun h => absurd rfl h⟩
      have hi := writes_modes_eq_false hstart hstop
      obtain ⟨hsm, hza⟩ := exec_modes fp inp (execAll fp ls s) hi
      rw [hi, hsm, hza]
      exact ih

theorem map_fst_labels (instrs : List Instr) (mdl : Z3Model m) :
    (labels instrs mdl).map (·.1) = instrs := by
  refine List.ext_getElem (by simp) fun k hk _ => ?_
  rw [List.getElem_map, getElem_labels]
  rfl

/-- The model that executes the instructions from the start of another one. -/
def executed (test : Test m) (instrs : List Instr) (start : Z3Model m) : Z3Model m :=
  { start with states := stateAt (test.fp start) (start.states 0) (labels instrs start) }

theorem tr_executed {test : Test m} {instrs : List Instr} {start : Z3Model m}
    (h : ∀ (k : ℕ) (hk : k < instrs.length),
      decode instrs[k] (start.inputs k) ((executed test instrs start).states k) = true) :
    test.tr instrs (executed test instrs start) := by
  have hlabels : labels instrs (executed test instrs start) = labels instrs start := rfl
  rw [tr_iff, hlabels]
  intro k hk
  constructor
  · rw [getElem_labels]
    exact h k _
  · show stateAt _ _ _ (k + 1) = _
    rw [stateAt, List.take_succ_eq_append_getElem hk]
    exact List.foldl_append

/-- A list of instructions has a run exactly when no instruction that needs a
mode comes after an `SMSTOP` with no `SMSTART` in between. -/
theorem query_satisfiable_iff (test : Test m) (instrs : List Instr) :
    (∃ mdl, test.query instrs (fun _ => True) mdl) ↔
      ∀ pre i post, instrs = pre ++ i :: post → i.needsModes = true →
        lastModeChange pre ≠ some .smstop := by
  constructor
  · rintro ⟨mdl, htr, -, -⟩ pre i post rfl hi hlast
    have hk : pre.length ≤ (pre ++ i :: post).length := by simp
    have hstep := tr_iff.mp htr pre.length (by simp)
    rw [getElem_labels] at hstep
    have hza := pstateZa_of_decode hstep.1 (by simpa using hi)
    have hnames : ((labels (pre ++ i :: post) mdl).take pre.length).map (·.1) = pre := by
      rw [List.map_take, map_fst_labels, List.take_left]
    have hoff := (modes_execAll (test.fp mdl) (mdl.states 0) _).1 (hnames.symm ▸ hlast)
    rw [← stateAt_of_tr htr hk, stateAt, hoff] at hza
    exact Bool.false_ne_true hza
  · intro h
    -- everything on from the start, and the same inputs at every step
    let inp : Inputs m := { (default : Inputs m) with cmd := tempOpcode }
    let s : State m := { (default : State m) with pstateSm := true, pstateZa := true }
    let start : Z3Model m := ⟨fun _ => s, fun _ => inp, default⟩
    refine ⟨executed test instrs start, tr_executed ?_, trivial, rfl⟩
    intro k hk
    have hnames : ((labels instrs start).take k).map (·.1) = instrs.take k := by
      rw [List.map_take, map_fst_labels]
    have hmodes := (modes_execAll (test.fp start) s ((labels instrs start).take k)).2
    rw [hnames] at hmodes
    refine decode_of_modes rfl fun hneeds => hmodes ?_ rfl rfl
    refine h _ instrs[k] (instrs.drop (k + 1)) ?_ hneeds
    rw [← List.drop_eq_getElem_cons hk, List.take_append_drop]

/-! ## Runs that the set-up allows -/

section Conclusive

variable (test : Test m) (instrs : List Instr) (needed : Set (Loc m)) (mdl : Z3Model m)

/-- What the needed locations depend on after the first `k` steps. -/
def liveAt (k : ℕ) : Set (Loc m) :=
  (machine m (test.fp mdl)).live needed ((labels instrs mdl).drop k)

/-- The models agree at all steps, as far as it matters for the needed locations. -/
def AgreeAlong (mdl' : Z3Model m) : Prop :=
  ∀ k ≤ instrs.length, AgreeOn (liveAt test instrs needed mdl k) (mdl'.states k) (mdl.states k)

/-- The models agree at the start, and their inputs make the instructions do
the same. -/
structure AgreeAtStart (mdl' : Z3Model m) : Prop where
  start : AgreeOn (liveAt test instrs needed mdl 0) (mdl'.states 0) (mdl.states 0)
  actions : ∀ (k : ℕ) (hk : k < instrs.length) (s : State m),
    exec (test.fp mdl') instrs[k] (mdl'.inputs k) s = exec (test.fp mdl) instrs[k] (mdl.inputs k) s

variable {test instrs needed mdl} {mdl' : Z3Model m}

theorem AgreeAtStart.along (h : AgreeAtStart test instrs needed mdl mdl')
    (htr : test.tr instrs mdl) (htr' : test.tr instrs mdl') :
    AgreeAlong test instrs needed mdl mdl' := by
  intro k hk
  induction k with
  | zero => exact h.start
  | succ k ih =>
      have hagree := ih (Nat.le_of_succ_le hk)
      rw [liveAt, List.drop_eq_getElem_cons (by simpa using hk)] at hagree
      have hstep := tr_iff.mp htr k (by simpa using hk)
      have hstep' := tr_iff.mp htr' k (by simpa using hk)
      rw [getElem_labels] at hstep hstep' hagree
      rw [hstep.2, hstep'.2]
      show AgreeOn _ (exec _ instrs[k] _ _) _
      rw [h.actions k hk]
      exact Machine.live_act (M := machine m (test.fp mdl)) hagree

/-- No action overwrites the count of faults. -/
theorem faults_mem_live (fp : FpFunctions) (hfaults : Loc.faults ∈ needed)
    (ls : List (Label m)) : Loc.faults ∈ (machine m fp).live needed ls := by
  induction ls with
  | nil => exact hfaults
  | cons l ls ih =>
      rw [Machine.live]
      split
      · exact Or.inl ⟨ih, fun hkill => hkill.2⟩
      · exact ih

/-- Take the needed locations to include the count of faults, which `CHECK` scans
after every step. If the set-up leaves nothing open on which they depend, and the
verification looks at nothing else, then a test that passes does so on every run
that the set-up allows, whichever of them a solver finds. -/
theorem passes_on_every_model (z3 : Z3Solver m) {setup : Constraint m}
    (found : z3.check (test.query instrs setup) = .sat mdl)
    (passes : PassesOn test instrs setup mdl) (hfaults : Loc.faults ∈ needed)
    (fixed : ∀ mdl', test.query instrs setup mdl' → AgreeAtStart test instrs needed mdl mdl')
    (observed : ∀ mdl', AgreeAlong test instrs needed mdl mdl' →
      test.verifyFn mdl' = test.verifyFn mdl) :
    (∀ mdl', test.query instrs setup mdl' → PassesOn test instrs setup mdl') ∧
      ∀ z3' : Z3Solver m, z3'.check (test.query instrs setup) ≠ .unknown → Passes z3' test := by
  have hquery := z3.sat_sound found
  have hall : ∀ mdl', test.query instrs setup mdl' → PassesOn test instrs setup mdl' := by
    intro mdl' hquery'
    obtain ⟨htr', hsetup', hstart'⟩ := hquery'
    have hagree := (fixed mdl' ⟨htr', hsetup', hstart'⟩).along hquery.1 htr'
    have hscan := (scan_iff hquery.1 hquery.2.2).mpr passes.noFaults
    refine ⟨passes.names, passes.setupFn, hsetup', ?_, hstart', ?_, ?_⟩
    · have hpath := path_of_tr htr' le_rfl
      rwa [List.take_of_length_le (length_labels instrs mdl').le] at hpath
    · refine (scan_iff htr' hstart').mp fun k hk => ?_
      have hlive : Loc.faults ∈ liveAt test instrs needed mdl k := faults_mem_live _ hfaults _
      have hsame := hagree k (by rw [List.mem_range] at hk; omega) .faults hlive
      exact hsame.trans (hscan k hk)
    · rw [observed mdl' hagree]
      exact passes.verifyFn
  refine ⟨hall, ?_⟩
  intro z3' hknown
  cases hcheck : z3'.check (test.query instrs setup) with
  | sat mdl' => exact ⟨instrs, setup, mdl', hcheck, hall mdl' (z3'.sat_sound hcheck)⟩
  | unsat => exact absurd hquery (z3'.unsat_sound hcheck mdl)
  | unknown => exact absurd hcheck hknown

end Conclusive

open Classical in
/-- A solver that knows one model. -/
noncomputable def knowing (mdl : Z3Model m) : Z3Solver m where
  check c := if c mdl then .sat mdl else .unknown
  sat_sound := by
    intro c mdl' h
    split at h
    case isTrue hc =>
      obtain rfl := CheckResult.sat.inj h
      exact hc
    case isFalse => cases h
  unsat_sound := by
    intro c h
    split at h <;> cases h

/-- `X[3]` is the destination, `Imm6` is -3. -/
def rdsvlSetup : Constraint smeDramLE := fun mdl =>
  (mdl.states 0).gprs 3 = 0 ∧ (mdl.inputs 0).rd = 3 ∧ (mdl.inputs 0).imm6 = 0x3D

/-- The test of `RDSVL` in `test_svl.cc`. -/
def rdsvlTest : Test smeDramLE where
  testName := "RDSVL reads value into X[3]"
  instrNames := ["RDSVL"]
  setupFn := pure rdsvlSetup
  verifyFn mdl :=
    if (mdl.states 1).gprs 3 = 0xffffffffffffffd0 then pure ()
    else recordFailure "EXPECT_TRUE: GPRs[3] is false"
  subFn := none

theorem passes_on_every_model_rdsvl :
    (∀ mdl, rdsvlTest.query [.rdsvl] rdsvlSetup mdl →
      PassesOn rdsvlTest [.rdsvl] rdsvlSetup mdl) ∧
    ∀ z3, z3.check (rdsvlTest.query [.rdsvl] rdsvlSetup) ≠ .unknown → Passes z3 rdsvlTest := by
  let inp : Inputs smeDramLE :=
    { (default : Inputs smeDramLE) with cmd := tempOpcode, rd := 3, imm := 0x3D }
  let mdl := executed rdsvlTest [.rdsvl] ⟨fun _ => default, fun _ => inp, default⟩
  have htr : rdsvlTest.tr [.rdsvl] mdl := tr_executed fun k hk => by
    obtain rfl : k = 0 := by simpa using hk
    rfl
  have hquery : rdsvlTest.query [.rdsvl] rdsvlSetup mdl := ⟨htr, ⟨rfl, rfl, rfl⟩, rfl⟩
  have found : (knowing mdl).check (rdsvlTest.query [.rdsvl] rdsvlSetup) = .sat mdl := if_pos hquery
  have hpath := path_of_tr htr (le_refl 1)
  have passes : PassesOn rdsvlTest [.rdsvl] rdsvlSetup mdl := by
    refine ⟨rfl, ⟨rfl, rfl⟩, hquery.2.1, hpath, rfl, ?_, ?_⟩
    · intro a l b hstep hfaults
      obtain rfl : l = (.rdsvl, inp) := List.mem_singleton.mp hstep.mem
      exact hfaults
    · have hx : (mdl.states 1).gprs 3 = 0xffffffffffffffd0 := by decide
      show (if _ then _ else _ : CheckM Unit).Clean ()
      rw [if_pos hx]
      exact clean_pure.mpr rfl
  have hwritten : (.x 3 : Loc smeDramLE) ∈ writes (.rdsvl, inp) := ⟨by decide, rfl⟩
  have hfaults : Loc.faults ∈ ({.faults, .x 3} : Set (Loc smeDramLE)) := Or.inl rfl
  refine passes_on_every_model (knowing mdl) found passes hfaults ?_ ?_
  · rintro mdl' ⟨-, ⟨-, hrd, himm⟩, hstart⟩
    constructor
    · show AgreeOn ((machine _ _).live _ [(.rdsvl, inp)]) _ _
      rw [Machine.live_cons_of_exists ⟨.x 3, hwritten, Or.inr rfl⟩]
      rintro loc (⟨rfl | rfl, hkept⟩ | hread)
      · exact hstart
      · exact absurd ⟨hwritten, trivial⟩ hkept
      · exact absurd hread (by simp [machine, reads, operands, Instr.modeReads])
    · intro k hk t
      obtain rfl : k = 0 := by simpa using hk
      show rdsvl t (mdl'.inputs 0) = rdsvl t inp
      rw [rdsvl, hrd, himm]
      rfl
  · intro mdl' hagree
    have hx : (mdl'.states 1).gprs 3 = (mdl.states 1).gprs 3 :=
      hagree 1 le_rfl (.x 3) (Or.inr rfl)
    show (if _ then _ else _) = (if _ then _ else _)
    rw [hx]

end ArmSmeIla
