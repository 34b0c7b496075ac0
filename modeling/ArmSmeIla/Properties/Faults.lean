import ArmSmeIla.Model.Check
import ArmSmeIla.Properties.SpillFill

/-!
# Fault accounting

`faults` is an 8-bit counter that four kinds of instructions increment. Which
of their steps do is said here without the code's bit operations: by the base
register, its alignment and the governing predicate.
-/

namespace ArmSmeIla

variable {m : ArmSme} {fp : FpFunctions}

/-! ## Faulting steps -/

/-- The base register: `SP` for 31. -/
def baseRegister (s : State m) (rn : BitVec 5) : BitVec 64 :=
  if h : rn.toNat < 31 then s.gprs ⟨rn.toNat, h⟩ else s.sp

/-- Some element is active at the size. -/
def AnyActive (s : State m) (pg : BitVec 4) (esize : ElementSize) : Prop :=
  ∃ i < m.dim esize, (s.pRegs ⟨pg.toNat, pg.isLt⟩).getLsbD (i * esize.bytes) = true

/-- The step of instruction `i` faults: a typed transfer with an active element
and a misaligned `SP` as its base, or a row transfer with a misaligned base. -/
def StepFaults (s : State m) (inp : Inputs m) : Instr → Prop
  | .ld1 esize | .st1 esize => inp.rn = 31 ∧ ¬ 16 ∣ s.sp.toNat ∧ AnyActive s inp.pg esize
  | .ldr | .str => ¬ 16 ∣ (baseRegister s inp.rn).toNat
  | _ => False

instance (s : State m) (pg : BitVec 4) (esize : ElementSize) :
    Decidable (AnyActive s pg esize) := by
  unfold AnyActive
  infer_instance

instance (s : State m) (inp : Inputs m) (i : Instr) : Decidable (StepFaults s inp i) := by
  unfold StepFaults
  cases i <;> infer_instance

/-- The number of faulting steps of a sequence. -/
def numFaults (fp : FpFunctions) : State m → List (Label m) → ℕ
  | _, [] => 0
  | s, l :: ls =>
      (if StepFaults s l.2 l.1 then 1 else 0) + numFaults fp (exec fp l.1 l.2 s) ls

/-! ## The code's conditions -/

/-- The `Ite` chain over the general purpose registers ends in `SP`. -/
theorem get64BitGPR_eq_baseRegister (s : State m) (rn : BitVec 5) :
    get64BitGPR s rn true = baseRegister s rn :=
  selectChain_gpr s.gprs s.sp rn

theorem misaligned_iff {w : ℕ} (addr : BitVec w) :
    (addr.extractLsb' 0 4 != 0#4) = true ↔ ¬ 16 ∣ addr.toNat := by
  rw [bne_iff_ne, ne_eq, ← BitVec.toNat_inj, BitVec.extractLsb'_toNat, Nat.dvd_iff_mod_eq_zero]
  rfl

/-- A one-bit accumulator that is OR-ed with a list of bits. -/
theorem foldl_or_ne_zero (f : ℕ → BitVec 1) (l : List ℕ) (bit : BitVec 1) :
    (l.foldl (fun bit i => bit ||| f i) bit != 0#1) = (bit != 0#1 || l.any (f · != 0#1)) := by
  have hor : ∀ x y : BitVec 1, (x ||| y != 0#1) = (x != 0#1 || y != 0#1) := by decide
  induction l generalizing bit with
  | nil => simp
  | cons i l ih => rw [List.foldl_cons, ih, hor, List.any_cons, Bool.or_assoc]

/-- The reduction finds an active element exactly when there is one. -/
theorem isAnyPredActive_iff (mask : BitVec m.pRegWidth) (esize : ElementSize) :
    (isAnyPredActive mask esize != 0#1) = true ↔
      ∃ i < m.dim esize, mask.getLsbD (i * esize.bytes) = true := by
  -- as a loop over all elements, from no bit at all
  have hall : isAnyPredActive mask esize = (List.range (m.dim esize)).foldl
      (fun bit i => bit ||| getPredBitFromLSB mask i esize.bits) 0#1 := by
    rw [← Loops.foldl_first_unrolled (m.dim_pos esize), BitVec.zero_or]
    rfl
  have hbit : ∀ i, (getPredBitFromLSB mask i esize.bits != 0#1) =
      mask.getLsbD (i * esize.bytes) := fun i => isActivated_eq mask i esize.bits
  rw [hall, foldl_or_ne_zero]
  simp only [hbit, bne_self_eq_false, Bool.false_or, List.any_eq_true, List.mem_range]

/-- An immediate of 16-byte blocks does not move the address off its alignment. -/
theorem misaligned_arrayAddr (s : State m) (inp : Inputs m) :
    ¬ 16 ∣ (arrayAddr s inp).toNat ↔ ¬ 16 ∣ (baseRegister s inp.rn).toNat := by
  rw [arrayAddr_eq, spillBlock_toNat, spillStart, get64BitGPR_eq_baseRegister,
    Nat.dvd_add_left (Dvd.dvd.mul_left m.sixteen_dvd_svlB _)]

/-! ## One step -/

theorem typedFaults_eq (s : State m) (inp : Inputs m) (esize : ElementSize) :
    typedFaults s inp esize =
      if inp.rn = 31 ∧ ¬ 16 ∣ s.sp.toNat ∧ AnyActive s inp.pg esize then s.faults + 1
      else s.faults := by
  have hactive := isAnyPredActive_iff (getPredicateRegister s inp.pg) esize
  rw [getPredicateRegister_eq] at hactive
  unfold typedFaults misalignedSp AnyActive
  rw [getPredicateRegister_eq]
  refine if_congr ?_ rfl rfl
  rw [Bool.and_eq_true, Bool.and_eq_true, hactive, misaligned_iff, beq_iff_eq]
  tauto

theorem arrayFaults_eq (s : State m) (inp : Inputs m) :
    arrayFaults s inp =
      if ¬ 16 ∣ (baseRegister s inp.rn).toNat then s.faults + 1 else s.faults := by
  unfold arrayFaults misalignedSp
  refine if_congr ?_ rfl rfl
  rw [Bool.or_eq_true, Bool.and_eq_true, misaligned_iff, misaligned_iff, misaligned_arrayAddr,
    beq_iff_eq, or_iff_right_iff_imp]
  -- the check on `SP` is covered by the one on the address
  rintro ⟨hsp, hmisaligned⟩
  rw [hsp]
  exact hmisaligned

/-- A step increments `faults` exactly when it faults. -/
theorem exec_faults_eq (fp : FpFunctions) (s : State m) (inp : Inputs m) (i : Instr) :
    (exec fp i inp s).faults = if StepFaults s inp i then s.faults + 1 else s.faults := by
  cases i with
  | ld1 esize | st1 esize => exact typedFaults_eq s inp esize
  | ldr | str => exact arrayFaults_eq s inp
  | _ => exact (exec_faults fp inp s rfl).trans (if_neg id).symm

/-! ## Runs -/

/-- The counter holds the number of faults so far, modulo 2 ^ 8. -/
theorem execAll_faults (fp : FpFunctions) (s : State m) (ls : List (Label m)) :
    (execAll fp ls s).faults = s.faults + BitVec.ofNat 8 (numFaults fp s ls) := by
  induction ls generalizing s with
  | nil => simp [execAll, numFaults]
  | cons l ls ih =>
      show (execAll fp ls (exec fp l.1 l.2 s)).faults = _
      rw [ih, exec_faults_eq, numFaults, BitVec.ofNat_add, ← BitVec.add_assoc]
      by_cases hl : StepFaults s l.2 l.1
      · rw [if_pos hl, if_pos hl]
        rfl
      · rw [if_neg hl, if_neg hl, BitVec.add_zero]

theorem numFaults_pos_iff {s t : State m} {ls : List (Label m)} (run : Path fp s ls t) :
    0 < numFaults fp s ls ↔
      ∃ a l b, Runs.StepOf (Step fp) s ls t a l b ∧ StepFaults a l.2 l.1 := by
  induction run with
  | nil s =>
      refine iff_of_false (Nat.lt_irrefl 0) ?_
      rintro ⟨a, l, b, hstep, _⟩
      exact List.not_mem_nil hstep.mem
  | @cons s mid t l ls h rest ih =>
      rw [numFaults, ← h.2]
      by_cases hl : StepFaults s l.2 l.1
      · rw [if_pos hl]
        exact iff_of_true (by omega) ⟨s, l, mid, .head h rest, hl⟩
      rw [if_neg hl, Nat.zero_add, ih]
      constructor
      · rintro ⟨a, l', b, hstep, hfaults⟩
        exact ⟨a, l', b, .tail h hstep, hfaults⟩
      · rintro ⟨a, l', b, hstep, hfaults⟩
        rcases hstep.cases with ⟨rfl, rfl, _⟩ | ⟨mid', h', later⟩
        · exact absurd hfaults hl
        · rw [h.2, ← h'.2]
          exact ⟨a, l', b, later, hfaults⟩

/-- From zero, some step shows a nonzero counter exactly when a step faulted:
right after the first fault it is 1, whatever happens later. -/
theorem exists_faults_ne_zero_iff (ls : List (Label m)) {s : State m} (hstart : s.faults = 0) :
    (∃ step < 1 + ls.length, (stateAt fp s ls step).faults ≠ 0) ↔ 0 < numFaults fp s ls := by
  induction ls generalizing s with
  | nil =>
      refine iff_of_false ?_ (Nat.lt_irrefl 0)
      rintro ⟨step, _, hne⟩
      rw [stateAt, List.take_nil] at hne
      exact hne hstart
  | cons l ls ih =>
      have hnext := exec_faults_eq fp s l.2 l.1
      rw [numFaults]
      by_cases hl : StepFaults s l.2 l.1
      · rw [if_pos hl, hstart] at hnext
        rw [if_pos hl]
        refine iff_of_true ⟨1, by simp, ?_⟩ (by omega)
        show (exec fp l.1 l.2 s).faults ≠ 0
        rw [hnext]
        decide
      · rw [if_neg hl, hstart] at hnext
        rw [if_neg hl, Nat.zero_add, ← ih hnext]
        constructor
        · rintro ⟨step, hstep, hne⟩
          cases step with
          | zero => exact absurd hstart hne
          | succ step => exact ⟨step, by simp only [List.length_cons] at hstep; omega, hne⟩
        · rintro ⟨step, hstep, hne⟩
          exact ⟨step + 1, by simp only [List.length_cons]; omega, hne⟩

/-- The scan only ever adds failures, one for each step that shows a fault. -/
theorem checkForFaults_eq (s : State m) (ls : List (Label m)) (currentFailures : ℕ) :
    checkForFaults fp s ls currentFailures = currentFailures +
      (List.range (1 + ls.length)).countP fun step => (stateAt fp s ls step).faults != 0 := by
  unfold checkForFaults
  generalize List.range (1 + ls.length) = steps
  induction steps generalizing currentFailures with
  | nil => rfl
  | cons step steps ih =>
      rw [List.foldl_cons, ih, List.countP_cons]
      by_cases hfound : ((stateAt fp s ls step).faults != 0) = true
      · simp only [hfound, if_true]
        omega
      · simp only [hfound]
        rfl

/-- `faults` counts the faulting steps of every prefix of a run modulo 2 ^ 8,
and the scan reports a failure exactly when some step of the run faulted. -/
theorem faults_exact {s t : State m} {ls : List (Label m)} (run : Path fp s ls t)
    (hstart : s.faults = 0) :
    (∀ {a l b}, Runs.StepOf (Step fp) s ls t a l b →
      b.faults = if StepFaults a l.2 l.1 then a.faults + 1 else a.faults) ∧
    (∀ (before after : List (Label m)) (a : State m), ls = before ++ after →
      Path fp s before a → a.faults = BitVec.ofNat 8 (numFaults fp s before)) ∧
    ∀ currentFailures, currentFailures < checkForFaults fp s ls currentFailures ↔
      ∃ a l b, Runs.StepOf (Step fp) s ls t a l b ∧ StepFaults a l.2 l.1 := by
  refine ⟨?_, ?_, ?_⟩
  · intro a l b hstep
    rw [hstep.is_step.2]
    exact exec_faults_eq fp a l.2 l.1
  · intro before after a _ hbefore
    rw [eq_execAll_of_path hbefore, execAll_faults, hstart]
    exact BitVec.zero_add _
  · intro currentFailures
    rw [← numFaults_pos_iff run, ← exists_faults_ne_zero_iff ls hstart, checkForFaults_eq,
      Nat.lt_add_right_iff_pos, List.countP_pos_iff]
    simp only [List.mem_range, bne_iff_ne]

/-- `SP = 8`: an `LDR` faults, then a masked-out `LD1` does not. -/
theorem faults_exact_sp :
    let inp : Inputs smeDramLE := { (default : Inputs smeDramLE) with cmd := tempOpcode, rn := 31 }
    let s : State smeDramLE :=
      { (default : State smeDramLE) with sp := 8, pstateSm := true, pstateZa := true }
    (exec default (.ld1 .word) inp (ldr s inp)).faults = 1 ∧
      3 < checkForFaults default s [(.ldr, inp), (.ld1 .word, inp)] 3 := by
  intro inp s
  have load : Step default s (.ldr, inp) (ldr s inp) := ⟨rfl, rfl⟩
  have typed : Step default (ldr s inp) (.ld1 .word, inp)
    (exec default (.ld1 .word) inp (ldr s inp)) := ⟨rfl, rfl⟩
  have run := Runs.cons load (.cons typed (.nil _))
  have hfaults : StepFaults s inp .ldr := by decide
  have exact' := faults_exact run rfl
  refine ⟨?_, (exact'.2.2 3).mpr ⟨_, _, _, .head load (.cons typed (.nil _)), hfaults⟩⟩
  have hcount : numFaults default s [(.ldr, inp), (.ld1 .word, inp)] = 1 := by decide
  rw [exact'.2.1 [(.ldr, inp), (.ld1 .word, inp)] [] _ rfl run, hcount]
  rfl

end ArmSmeIla
