import ArmSmeIla.Architecture.Locations
import ArmSmeIla.Properties.Accumulation

/-!
# Schedules and slices of programs

Which orders of a program's steps give the same paths, and which steps can be
left out, both read off the tables of locations.
-/

namespace ArmSmeIla

open Arch Loc

variable {m : ArmSme} {fp : FpFunctions}

/-! ## Conflicts -/

/-- Changes of a location that can be made in either order: faults are counted,
integers of one size are added. -/
def Additive (i j : Instr) : Loc m → Prop
  | .faults => True
  | .row _ => ∃ esize, i.AccumulatesAt esize ∧ j.AccumulatesAt esize
  | _ => False

/-- One of two steps writes what the other reads, or both change a location in
ways whose order matters. -/
def Conflict (l l' : Label m) : Prop :=
  ∃ loc, (loc ∈ writes l ∧ loc ∈ reads l') ∨ (loc ∈ reads l ∧ loc ∈ writes l') ∨
    (loc ∈ writes l ∧ loc ∈ writes l') ∧ ¬ Additive l.1 l'.1 loc

theorem exec_za_swap {i j : Instr} {esize : AccSize} (hi : i.AccumulatesAt esize)
    (hj : j.AccumulatesAt esize) (inp inp' : Inputs m) (s : State m) :
    (exec fp j inp' (exec fp i inp s)).za = (exec fp i inp (exec fp j inp' s)).za := by
  have acc := accumulates fp esize s
  have hall : ∀ l ∈ [((j, inp') : Label m), (i, inp)], l.1.AccumulatesAt esize := by
    intro l hl
    rcases List.mem_pair.mp hl with rfl | rfl
    · exact hj
    · exact hi
  exact tiles_injective esize
    (acc.view_foldl_perm (List.Perm.swap (i, inp) (j, inp') []).symm hall ⟨rfl, rfl⟩)

/-- Whether a step faults depends on its operands. -/
theorem stepFaults_of_agree {i : Instr} {inp : Inputs m} {s t : State m}
    (h : AgreeOn (operands (i, inp)) s t) : StepFaults s inp i ↔ StepFaults t inp i := by
  rw [← faulting_iff s 0 inp i, ← faulting_iff t 0 inp i, faulting_determined h]

theorem independent_of_not_conflict (fp : FpFunctions) {l l' : Label m} (h : ¬ Conflict l l') :
    (machine m fp).Independent l l' := by
  have hleft : ∀ loc ∈ writes l, loc ∉ reads l' := fun loc hw hr => h ⟨loc, Or.inl ⟨hw, hr⟩⟩
  have hright : ∀ loc ∈ writes l', loc ∉ reads l :=
    fun loc hw hr => h ⟨loc, Or.inr (Or.inl ⟨hr, hw⟩)⟩
  refine ⟨hleft, hright, ?_⟩
  intro loc hw hw' s
  have hadd : Additive l.1 l'.1 loc := by
    by_contra hnot
    exact h ⟨loc, Or.inr (Or.inr ⟨⟨hw, hw'⟩, hnot⟩)⟩
  show loc.get (exec fp l'.1 l'.2 (exec fp l.1 l.2 s)) =
    loc.get (exec fp l.1 l.2 (exec fp l'.1 l'.2 s))
  cases loc with
  | faults =>
      have hkept : StepFaults (exec fp l.1 l.2 s) l'.2 l'.1 ↔ StepFaults s l'.2 l'.1 :=
        stepFaults_of_agree fun loc hr => get_frame fp s fun hc => hleft loc hc (Or.inl hr)
      have hkept' : StepFaults (exec fp l'.1 l'.2 s) l.2 l.1 ↔ StepFaults s l.2 l.1 :=
        stepFaults_of_agree fun loc hr => get_frame fp s fun hc => hright loc hc (Or.inl hr)
      show (exec fp l'.1 l'.2 (exec fp l.1 l.2 s)).faults =
        (exec fp l.1 l.2 (exec fp l'.1 l'.2 s)).faults
      simp only [exec_faults_eq, hkept, hkept']
      split <;> split <;> rfl
  | row r =>
      rcases hadd with ⟨esize, hi, hj⟩
      exact congrArg (fun za => rows za r) (exec_za_swap hi hj l.2 l'.2 s)
  | _ => exact absurd hadd id

/-! ## Schedules -/

/-- A schedule of a program has exactly the program's paths, if of any two
conflicting steps it takes first the one that the program takes first. -/
theorem path_schedule_iff (fp : FpFunctions) {n : ℕ} (program : Fin n → Label m)
    {schedule : List (Fin n)} (perm : schedule.Perm (List.finRange n))
    (ordered : schedule.Pairwise fun a b => Conflict (program a) (program b) → a < b)
    (s t : State m) :
    Path fp s (schedule.map program) t ↔ Path fp s (List.ofFn program) t := by
  refine Machine.run_schedule_iff (M := machine m fp) program perm (ordered.imp ?_)
  intro a b hab
  by_cases hc : Conflict (program a) (program b)
  · exact Or.inr (hab hc)
  · exact Or.inl (independent_of_not_conflict fp hc)

/-- A row of `ZA0.S` and one of `ZA1.S` are loaded in either order. -/
theorem path_schedule_iff_ld1 :
    let inp : Inputs smeDramLE := { (default : Inputs smeDramLE) with cmd := tempOpcode }
    let program : Fin 2 → Label smeDramLE :=
      ![(.ld1 .word, inp), (.ld1 .word, { inp with zat := 1, rn := 1 })]
    let s : State smeDramLE :=
      { (default : State smeDramLE) with
        pstateSm := true, pstateZa := true, pRegs := fun _ => 0xFFFF
        gprs := fun i => BitVec.ofNat 64 (16 * i), dram := fun addr => addr.setWidth 8 }
    let t := execAll default (List.ofFn program) s
    Path default s (([1, 0] : List (Fin 2)).map program) t ∧ t.za 4 = 0x0B ∧ t.za 20 = 0x1B := by
  intro inp program s t
  have hconflict : ¬ Conflict (program 1) (program 0) := by
    rintro ⟨loc, h⟩
    -- only the count of faults is written by both
    cases loc <;> simp [program, writes, reads, operands, Instr.modeReads, ofTile, ofX, ofP,
      Additive] at h
    exact absurd (h.1.1.symm.trans h.1.2) (by decide)
  constructor
  · refine (path_schedule_iff default program (by decide) ?_ s _).mpr ?_
    · simp [hconflict]
    · refine path_execAll default ?_
      intro l hl
      rcases List.mem_pair.mp hl with rfl | rfl <;> exact ⟨rfl, rfl⟩
  · decide +kernel

/-! ## Slices -/

/-- For any locations of interest, the slice of a path's steps has a path from
every state that agrees with the first one where the slice depends on it, and
it ends with the same values in those locations. -/
theorem path_slice (fp : FpFunctions) {s t : State m} {ls : List (Label m)} (run : Path fp s ls t)
    (needed : Set (Loc m)) {s' : State m} (agree : AgreeOn ((machine m fp).live needed ls) s' s) :
    ∃ t', Path fp s' ((machine m fp).slice needed ls) t' ∧ AgreeOn needed t' t :=
  Machine.run_slice (M := machine m fp) run agree

/-- For the rows of ZA after `SMSTART` and a load, a load before them can be left
out: then ZA need not even be enabled at the start. -/
theorem path_slice_ld1 :
    let inp : Inputs smeDramLE := { (default : Inputs smeDramLE) with cmd := tempOpcode }
    let s : State smeDramLE :=
      { (default : State smeDramLE) with pstateZa := true, dram := fun addr => addr.setWidth 8 }
    let s' : State smeDramLE := { s with pstateZa := false, za := fun _ => 0xFF, faults := 3 }
    let ls : List (Label smeDramLE) :=
      [(.ldr, { inp with imm := 2 }), (.smstart, inp), (.ldr, inp)]
    ∃ t', Path default s' [(.smstart, inp), (.ldr, inp)] t' ∧
      AgreeOn (Set.range .row) t' (execAll default ls s) := by
  intro inp s s' ls
  let M := machine smeDramLE default
  let needed : Set (Loc smeDramLE) := Set.range .row
  have run : Path default s ls (execAll default ls s) :=
    .cons ⟨rfl, rfl⟩ (.cons ⟨rfl, rfl⟩ (.cons ⟨rfl, rfl⟩ (.nil _)))
  let r : RowIdx smeDramLE := ⟨0, by decide⟩
  have hload : ∃ loc ∈ M.writes (.ldr, inp), loc ∈ M.live needed [] :=
    ⟨.row r, Or.inr ⟨r, rfl⟩, ⟨r, rfl⟩⟩
  have hclear : ∃ loc ∈ M.writes (.smstart, inp), loc ∈ M.live needed [(.ldr, inp)] := by
    refine ⟨.row r, Or.inr ⟨r, rfl⟩, ?_⟩
    rw [Machine.live_cons_of_exists hload]
    exact Or.inl ⟨⟨r, rfl⟩, fun hkill => hkill.2.elim nofun nofun⟩
  -- `SMSTART` replaces all rows and the modes
  have hlive : ∀ loc ∈ M.live needed [(.smstart, inp), (.ldr, inp)],
      loc = .mem ∨ ∃ n, loc = .x n := by
    intro loc hloc
    rw [Machine.live_cons_of_exists hclear, Machine.live_cons_of_exists hload] at hloc
    obtain ⟨⟨⟨r, rfl⟩, -⟩ | hread, hkept⟩ | hread := hloc
    · exact absurd ⟨Or.inr ⟨r, rfl⟩, Or.inl rfl⟩ hkept
    · obtain ((rfl | rfl) | ⟨h, rfl⟩) | rfl := hread
      · exact Or.inr ⟨_, rfl⟩
      · exact Or.inl rfl
      · exact Or.inr ⟨_, rfl⟩
      · exact absurd ⟨Or.inl (Or.inl (Or.inl (Or.inr rfl))), trivial⟩ hkept
    · exact absurd hread (by simp [M, machine, reads, operands, Instr.modeReads])
  have hdropped : ¬ ∃ loc ∈ M.writes (.ldr, { inp with imm := 2 }),
      loc ∈ M.live needed [(.smstart, inp), (.ldr, inp)] := by
    rintro ⟨loc, hwrite, hloc⟩
    obtain rfl | ⟨n, rfl⟩ := hlive loc hloc
    · simp [M, machine, writes] at hwrite
    · simp [M, machine, writes] at hwrite
  have hslice : M.slice needed ls = [(.smstart, inp), (.ldr, inp)] := by
    rw [Machine.slice_cons_of_not_exists hdropped, Machine.slice_cons_of_exists hclear,
      Machine.slice_cons_of_exists hload]
    rfl
  rw [← hslice]
  refine path_slice default run needed fun loc hloc => ?_
  rw [Machine.live_cons_of_not_exists hdropped] at hloc
  obtain rfl | ⟨n, rfl⟩ := hlive loc hloc
  · rfl
  · rfl

end ArmSmeIla
