import ArmSmeIla.Properties.SpillFill

/-!
# SMSTART and SMSTOP

The source's notes on `PSTATE` tie each reset to a change of a mode bit, while
the two instructions reset unconditionally. A step therefore follows the notes
exactly when what it resets without a mode change was zero already. Between the
two, the mode bits are gates: with `pstate_za` off nothing reaches ZA or DRAM.
-/

namespace ArmSmeIla

open Packing

variable {m : ArmSme}

/-- `ResetSMEState` stores a zero at every address of ZA. -/
theorem resetSMEState_eq (za : ZaMem m) : resetSMEState za = fun _ => 0 := by
  funext addr
  have hit := Loops.storeAll_hit (fun _ => (0 : BitVec 8))
    (fun _ hi _ hj => ofNat_zaAddr_inj hi hj) (zaAddr_toNat_lt addr) za
  rw [BitVec.ofNat_toNat, BitVec.setWidth_eq] at hit
  exact hit

/-! ## The notes -/

/-- The vector and predicate registers are all zero. -/
def SveZero (s : State m) : Prop := (∀ i, s.zRegs i = 0) ∧ ∀ i, s.pRegs i = 0

def ZaZero (s : State m) : Prop := ∀ addr, s.za addr = 0

/-- Changing `pstate_sm` always resets the SVE state; ZA only resets when
`pstate_za` is flipped to 1 from initially 0. -/
structure ResetsOnModeChange (a b : State m) : Prop where
  sve_reset : b.pstateSm ≠ a.pstateSm → SveZero b
  sve_kept : b.pstateSm = a.pstateSm → b.zRegs = a.zRegs ∧ b.pRegs = a.pRegs
  za_reset : a.pstateZa = false ∧ b.pstateZa = true → ZaZero b
  za_kept : ¬ (a.pstateZa = false ∧ b.pstateZa = true) → b.za = a.za

/-- A step as the notes want it; in particular an `SMSTART` with both modes on
changes nothing. -/
def FollowsNotes (i : Instr) (a b : State m) : Prop :=
  (i = .smstart ∨ i = .smstop → ResetsOnModeChange a b) ∧
    (i = .smstart → a.pstateSm = true → a.pstateZa = true → b = a)

/-- Where the mode bit does not change, there is nothing to lose. -/
def NothingToLose (i : Instr) (a : State m) : Prop :=
  (i = .smstart → (a.pstateSm = true → SveZero a) ∧ (a.pstateZa = true → ZaZero a)) ∧
    (i = .smstop → a.pstateSm = false → SveZero a)

/-! ## What the instructions do -/

theorem sveZero_resetSVEState (s : State m) : SveZero (resetSVEState s) :=
  ⟨fun _ => rfl, fun _ => rfl⟩

theorem zaZero_smstart (s : State m) : ZaZero (smstart s) :=
  congrFun (resetSMEState_eq s.za)

/-- A reset keeps the registers exactly when they are zero. -/
theorem sve_kept_iff (s : State m) :
    ((resetSVEState s).zRegs = s.zRegs ∧ (resetSVEState s).pRegs = s.pRegs) ↔ SveZero s := by
  constructor
  · rintro ⟨hz, hp⟩
    exact ⟨fun i => (congrFun hz i).symm, fun i => (congrFun hp i).symm⟩
  · rintro ⟨hz, hp⟩
    exact ⟨funext fun i => (hz i).symm, funext fun i => (hp i).symm⟩

theorem za_kept_iff (s : State m) : (smstart s).za = s.za ↔ ZaZero s := by
  constructor
  · intro h addr
    rw [← h]
    exact zaZero_smstart s addr
  · intro h
    funext addr
    rw [h addr]
    exact zaZero_smstart s addr

theorem smstart_followsNotes_iff (s : State m) :
    FollowsNotes .smstart s (smstart s) ↔ NothingToLose .smstart s := by
  constructor
  · rintro ⟨hreset, _⟩
    have h := hreset (Or.inl rfl)
    refine ⟨fun _ => ⟨fun hsm => ?_, fun hza => ?_⟩, nofun⟩
    · exact (sve_kept_iff s).mp (h.sve_kept hsm.symm)
    · exact (za_kept_iff s).mp (h.za_kept (by simp [hza]))
  · rintro ⟨hlose, _⟩
    obtain ⟨hsve, hza⟩ := hlose rfl
    refine ⟨fun _ => ⟨fun _ => sveZero_resetSVEState s, fun hsm => ?_, fun _ => zaZero_smstart s,
      fun hkeep => ?_⟩, fun _ hsm hon => ?_⟩
    · exact (sve_kept_iff s).mpr (hsve hsm.symm)
    · apply (za_kept_iff s).mpr (hza ?_)
      by_contra hoff
      exact hkeep ⟨Bool.eq_false_iff.mpr hoff, rfl⟩
    · -- both modes on: every updated state has its old value
      obtain ⟨hz, hp⟩ := (sve_kept_iff s).mpr (hsve hsm)
      have hmem := (za_kept_iff s).mpr (hza hon)
      exact State.ext rfl hmem hsm.symm hon.symm rfl hz hp rfl rfl rfl rfl

theorem smstop_followsNotes_iff (s : State m) :
    FollowsNotes .smstop s (smstop s) ↔ NothingToLose .smstop s := by
  constructor
  · rintro ⟨hreset, _⟩
    have h := hreset (Or.inr rfl)
    exact ⟨nofun, fun _ hsm => (sve_kept_iff s).mp (h.sve_kept hsm.symm)⟩
  · rintro ⟨_, hlose⟩
    refine ⟨fun _ => ⟨fun _ => sveZero_resetSVEState s, fun hsm => ?_, nofun, fun _ => rfl⟩, nofun⟩
    exact (sve_kept_iff s).mpr (hlose rfl hsm.symm)

theorem step_followsNotes_iff {fp : FpFunctions} {a b : State m} {l : Label m}
    (h : Step fp a l b) : FollowsNotes l.1 a b ↔ NothingToLose l.1 a := by
  obtain ⟨i, inp⟩ := l
  obtain ⟨_, rfl⟩ := h
  by_cases hstart : i = .smstart
  · subst hstart
    exact smstart_followsNotes_iff a
  by_cases hstop : i = .smstop
  · subst hstop
    exact smstop_followsNotes_iff a
  · simp [FollowsNotes, NothingToLose, hstart, hstop]

/-- In every run: all steps follow the notes exactly when no `SMSTART` or
`SMSTOP` meets live data under a mode bit that it does not change. -/
theorem run_followsNotes_iff (fp : FpFunctions) (s t : State m) (ls : List (Label m)) :
    (∀ {a l b}, Runs.StepOf (Step fp) s ls t a l b → FollowsNotes l.1 a b) ↔
      ∀ {a l b}, Runs.StepOf (Step fp) s ls t a l b → NothingToLose l.1 a := by
  constructor
  · intro h a l b hstep
    exact (step_followsNotes_iff hstep.is_step).mp (h hstep)
  · intro h a l b hstep
    exact (step_followsNotes_iff hstep.is_step).mpr (h hstep)

/-- The load fills row 0 of ZA with the ones of DRAM. -/
theorem not_zaZero_ldr {s : State smeDramLE} {inp : Inputs smeDramLE}
    (hones : s.dram = fun _ => 1) : ¬ ZaZero (ldr s inp) := by
  intro hzero
  let c : SliceIdx smeDramLE .byte := ⟨0, by decide⟩
  let i : Fin ElementSize.byte.bytes := ⟨0, by decide⟩
  have hsaved := congrFun (rowSaved_ldr s inp) c
  have hbyte := elem_dramGetVectorAsZaEndian (m := smeDramLE) s.dram
    (spillBlock smeDramLE (get64BitGPR s inp.rn true) inp.imm4) false c i
  have hcell := elem_tiles (ldr s inp).za za0B
    (spillRow smeDramLE (get32BitGPR s inp.rv) inp.imm4) c i
  rw [hzero] at hcell
  have hone : (1 : BitVec 8) = 0 := by
    have hread := hbyte.symm.trans ((congrArg (elem · i 8) hsaved).trans hcell)
    rwa [hones] at hread
  exact absurd hone (by decide)

/-- A row loaded between two `SMSTART`s is lost, though both modes stay on. -/
theorem smstart_loses_loaded_row :
    let inp : Inputs smeDramLE := { (default : Inputs smeDramLE) with cmd := tempOpcode }
    let s : State smeDramLE := { (default : State smeDramLE) with dram := fun _ => 1 }
    let loaded := ldr (smstart s) inp
    Runs.StepOf (Step default) s [(.smstart, inp), (.ldr, inp), (.smstart, inp)]
        (smstart loaded) loaded (.smstart, inp) (smstart loaded) ∧
      loaded.pstateSm = true ∧ loaded.pstateZa = true ∧
      ¬ FollowsNotes .smstart loaded (smstart loaded) := by
  intro inp s loaded
  have first : Step default s (.smstart, inp) (smstart s) := ⟨rfl, rfl⟩
  have load : Step default (smstart s) (.ldr, inp) loaded := ⟨rfl, rfl⟩
  have again : Step default loaded (.smstart, inp) (smstart loaded) := ⟨rfl, rfl⟩
  refine ⟨.tail first (.tail load (.head again (.nil _))), rfl, rfl, ?_⟩
  rw [smstart_followsNotes_iff]
  rintro ⟨hlose, _⟩
  exact not_zaZero_ldr rfl ((hlose rfl).2 rfl)

/-! ## The modes as gates -/

/-- What a step may touch: the mode bits in `SMSTART` and `SMSTOP` only, and
with `pstate_za` off nothing of ZA (but for `SMSTART`), DRAM, the captured
write and `faults`. -/
structure Gated (i : Instr) (a b : State m) : Prop where
  modes : i ≠ .smstart → i ≠ .smstop →
    b.pstateSm = a.pstateSm ∧ b.pstateZa = a.pstateZa
  za : a.pstateZa = false → i ≠ .smstart → b.za = a.za
  memory : a.pstateZa = false → b.dram = a.dram ∧ b.wbSvlVector = a.wbSvlVector ∧
    b.wbBaseAddr = a.wbBaseAddr ∧ b.faults = a.faults

/-- The parts that are only written with `pstate_za` on. -/
def Part.gated : Part → Bool
  | .za | .dram | .faults => true
  | .modes | .zRegs | .pRegs | .gprs => false

/-- The decode conditions ask for `pstate_za` wherever an instruction writes a
gated part. -/
theorem writes_eq_false_of_decode {i : Instr} {inp : Inputs m} {s : State m}
    (hdecode : decode i inp s = true) (hoff : s.pstateZa = false) (hi : i ≠ .smstart) {p : Part}
    (hp : p.gated = true) : i.writes p = false := by
  cases i with
  | smstart => exact absurd rfl hi
  | smstop | movaT2V | addspl | addsvl | rdsvl | psel | revd | sclamp | uclamp =>
      cases p <;> first | rfl | cases hp
  | _ => simp [decode, modeEnabled, hoff] at hdecode

theorem writes_modes_eq_false {i : Instr} (hstart : i ≠ .smstart) (hstop : i ≠ .smstop) :
    i.writes .modes = false := by
  cases i with
  | smstart => exact absurd rfl hstart
  | smstop => exact absurd rfl hstop
  | _ => rfl

theorem step_gated {fp : FpFunctions} {a b : State m} {l : Label m} (h : Step fp a l b) :
    Gated l.1 a b := by
  rcases l with ⟨i, inp⟩
  rcases h with ⟨hdecode, rfl⟩
  constructor
  · intro hstart hstop
    exact exec_modes fp inp a (writes_modes_eq_false hstart hstop)
  · intro hoff hi
    exact exec_za fp inp a (writes_eq_false_of_decode hdecode hoff hi rfl)
  · intro hoff
    by_cases hi : i = .smstart
    · subst hi
      exact ⟨rfl, rfl, rfl, rfl⟩
    · rcases exec_dram fp inp a (writes_eq_false_of_decode hdecode hoff hi rfl) with ⟨hd, hv, hb⟩
      exact ⟨hd, hv, hb, exec_faults fp inp a (writes_eq_false_of_decode hdecode hoff hi rfl)⟩

/-- The two mode bits move together. -/
theorem step_sameModes {fp : FpFunctions} {a b : State m} {l : Label m} (h : Step fp a l b)
    (hsame : a.pstateSm = a.pstateZa) : b.pstateSm = b.pstateZa := by
  by_cases hstart : l.1 = .smstart
  · rw [h.2, hstart]
    rfl
  by_cases hstop : l.1 = .smstop
  · rw [h.2, hstop]
    rfl
  · rcases (step_gated h).modes hstart hstop with ⟨hsm, hza⟩
    rw [hsm, hza, hsame]

/-- With `pstate_za` off, only `SMSTART` turns it on or writes ZA. -/
theorem step_gateClosed {fp : FpFunctions} {a b : State m} {l : Label m} (h : Step fp a l b)
    (hl : l.1 ≠ .smstart) (hoff : a.pstateZa = false) : b.pstateZa = false ∧ b.za = a.za := by
  refine ⟨?_, (step_gated h).za hoff hl⟩
  by_cases hstop : l.1 = .smstop
  · rw [h.2, hstop]
    rfl
  · rw [((step_gated h).modes hl hstop).2, hoff]

/-- `SMSTOP` closes the gate, and ZA keeps its value until the next `SMSTART`. -/
theorem za_kept_of_closed {fp : FpFunctions} {a b c : State m} {inp : Inputs m}
    {mid : List (Label m)} (hstop : Step fp a (.smstop, inp) b) (run : Path fp b mid c)
    (hmid : ∀ l ∈ mid, l.1 ≠ .smstart) : c.za = a.za := by
  have hclosed : b.pstateZa = false ∧ b.za = a.za := by
    rw [hstop.2]
    exact ⟨rfl, rfl⟩
  refine (Runs.invariant (I := fun s => s.pstateZa = false ∧ s.za = a.za) ?_ run hmid hclosed).2
  rintro s l t hstep hl ⟨hoff, hkept⟩
  rcases step_gateClosed hstep hl hoff with ⟨hoff', hza⟩
  exact ⟨hoff', hza.trans hkept⟩

/-- In every run the mode bits move at `SMSTART` and `SMSTOP` only, equal bits
stay equal, and the gated parts rest while `pstate_za` is off; so ZA before an
`SMSTART` is ZA before the last `SMSTOP`, unless another `SMSTART` ran since. -/
theorem run_gated {fp : FpFunctions} {s t : State m} {ls : List (Label m)}
    (run : Path fp s ls t) :
    (∀ {a l b}, Runs.StepOf (Step fp) s ls t a l b → Gated l.1 a b) ∧
    (s.pstateSm = s.pstateZa → t.pstateSm = t.pstateZa) ∧
    ∀ (pre mid post : List (Label m)) (inp inp' : Inputs m) (a b c : State m),
      ls = pre ++ (.smstop, inp) :: (mid ++ (.smstart, inp') :: post) →
      (∀ l ∈ mid, l.1 ≠ .smstart) →
      Path fp s pre a → Step fp a (.smstop, inp) b → Path fp b mid c → c.za = a.za := by
  refine ⟨?_, ?_, ?_⟩
  · intro a l b hstep
    exact step_gated hstep.is_step
  · intro hsame
    refine Runs.invariant (I := fun u => u.pstateSm = u.pstateZa) (Q := fun _ => True) ?_ run
      (fun _ _ => trivial) hsame
    exact fun hstep _ => step_sameModes hstep
  · intro pre mid post inp inp' a b c _ hmid _ hstop hrun
    exact za_kept_of_closed hstop hrun hmid

/-- A loaded row outlives the gap between `SMSTOP` and the next `SMSTART`. -/
theorem run_gated_restart :
    let inp : Inputs smeDramLE := { (default : Inputs smeDramLE) with cmd := tempOpcode }
    let s : State smeDramLE := { (default : State smeDramLE) with dram := fun _ => 1 }
    let loaded := ldr (smstart s) inp
    let off := revd (smstop loaded) inp
    off.za = loaded.za ∧ (smstart off).pstateSm = (smstart off).pstateZa := by
  intro inp s loaded off
  have first : Step default s (.smstart, inp) (smstart s) := ⟨rfl, rfl⟩
  have load : Step default (smstart s) (.ldr, inp) loaded := ⟨rfl, rfl⟩
  have stop : Step default loaded (.smstop, inp) (smstop loaded) := ⟨rfl, rfl⟩
  have idle : Step default (smstop loaded) (.revd, inp) off := ⟨rfl, rfl⟩
  have again : Step default off (.smstart, inp) (smstart off) := ⟨rfl, rfl⟩
  have gated := run_gated
    (.cons first (.cons load (.cons stop (.cons idle (.cons again (.nil _))))))
  refine ⟨?_, gated.2.1 rfl⟩
  exact gated.2.2 [(.smstart, inp), (.ldr, inp)] [(.revd, inp)] [] inp inp loaded (smstop loaded)
    off rfl (by simp) (.cons first (.cons load (.nil _))) stop (.cons idle (.nil _))

/-- A row loaded after an `SMSTART` is in ZA before the next one, though not
before the `SMSTOP` that precedes both. -/
theorem smstop_smstart_changes_za :
    let inp : Inputs smeDramLE := { (default : Inputs smeDramLE) with cmd := tempOpcode }
    let s : State smeDramLE := { (default : State smeDramLE) with dram := fun _ => 1 }
    let loaded := ldr (smstart (smstop s)) inp
    Path default s [(.smstop, inp), (.smstart, inp), (.ldr, inp), (.smstart, inp)]
        (smstart loaded) ∧
      Runs.StepOf (Step default) s
        [(.smstop, inp), (.smstart, inp), (.ldr, inp), (.smstart, inp)] (smstart loaded)
        loaded (.smstart, inp) (smstart loaded) ∧
      loaded.za ≠ s.za := by
  intro inp s loaded
  have stop : Step default s (.smstop, inp) (smstop s) := ⟨rfl, rfl⟩
  have first : Step default (smstop s) (.smstart, inp) (smstart (smstop s)) := ⟨rfl, rfl⟩
  have load : Step default (smstart (smstop s)) (.ldr, inp) loaded := ⟨rfl, rfl⟩
  have again : Step default loaded (.smstart, inp) (smstart loaded) := ⟨rfl, rfl⟩
  refine ⟨.cons stop (.cons first (.cons load (.cons again (.nil _)))),
    .tail stop (.tail first (.tail load (.head again (.nil _)))), ?_⟩
  intro hsame
  have hzero : ZaZero loaded := fun addr => congrFun hsame addr
  exact not_zaZero_ldr rfl hzero

end ArmSmeIla
