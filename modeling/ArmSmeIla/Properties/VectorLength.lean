import ArmSmeIla.Views.Footprints

/-!
# Vector length arithmetic

`ADDSPL`, `ADDSVL` and `RDSVL` against an interpreter over integers. Wrapping
commutes with the operations, so the 64-bit registers are the wrapped integers
after every sequence.
-/

namespace ArmSmeIla

variable {m : ArmSme} {fp : FpFunctions}

inductive LengthOp where
  | addspl
  | addsvl
  | rdsvl
deriving DecidableEq, Repr

def LengthOp.toInstr : LengthOp → Instr
  | .addspl => .addspl
  | .addsvl => .addsvl
  | .rdsvl => .rdsvl

/-! ## The integer interpreter -/

/-- `x0` to `x30` and `SP`, as integers. -/
structure IntRegs where
  x : Fin 31 → ℤ
  sp : ℤ

namespace IntRegs

/-- Index 31 is `SP`. -/
def read (r : IntRegs) (idx : BitVec 5) : ℤ :=
  if h : idx.toNat < 31 then r.x ⟨idx.toNat, h⟩ else r.sp

def write (r : IntRegs) (idx : BitVec 5) (val : ℤ) : IntRegs :=
  if h : idx.toNat < 31 then { r with x := Function.update r.x ⟨idx.toNat, h⟩ val }
  else { r with sp := val }

/-- Index 31 discards the value. -/
def writeX (r : IntRegs) (idx : BitVec 5) (val : ℤ) : IntRegs :=
  if h : idx.toNat < 31 then { r with x := Function.update r.x ⟨idx.toNat, h⟩ val } else r

def step (r : IntRegs) (l : LengthOp × Inputs m) : IntRegs :=
  let imm : ℤ := l.2.imm6.toInt
  match l.1 with
  | .addspl => r.write l.2.rd (r.read l.2.rn + imm * (m.svl / 64 : ℕ))
  | .addsvl => r.write l.2.rd (r.read l.2.rn + imm * (m.svl / 8 : ℕ))
  | .rdsvl => r.writeX l.2.rd (imm * (m.svl / 8 : ℕ))

/-- The registers of a state, as natural numbers. -/
def ofState (s : State m) : IntRegs :=
  { x := fun i => (s.gprs i).toNat, sp := s.sp.toNat }

end IntRegs

/-- The registers are the integers modulo `2 ^ 64`. -/
structure Represents (r : IntRegs) (s : State m) : Prop where
  x : ∀ i, s.gprs i = BitVec.ofInt 64 (r.x i)
  sp : s.sp = BitVec.ofInt 64 r.sp

theorem represents_ofState (s : State m) : Represents (IntRegs.ofState s) s where
  x := by
    intro i
    rw [IntRegs.ofState, BitVec.ofInt_natCast, BitVec.ofNat_toNat, BitVec.setWidth_eq]
  sp := by rw [IntRegs.ofState, BitVec.ofInt_natCast, BitVec.ofNat_toNat, BitVec.setWidth_eq]

/-! ## Reads and writes -/

theorem updateSingle64BitGPR_gprs (s : State m) (idx : BitVec 5) (val : BitVec 64) (useSp : Bool)
    (i : Fin 31) :
    (updateSingle64BitGPR s idx val useSp).gprs i =
      if idx.toNat = i then val else s.gprs i := by
  have hname : idx = BitVec.ofNat 5 i ↔ idx.toNat = i := by
    rw [← BitVec.toNat_inj, BitVec.toNat_ofNat, Nat.mod_eq_of_lt (by omega)]
  exact if_congr hname rfl rfl

theorem updateSingle64BitGPR_sp (s : State m) (idx : BitVec 5) (val : BitVec 64) (useSp : Bool) :
    (updateSingle64BitGPR s idx val useSp).sp =
      if useSp = true ∧ idx.toNat = 31 then val else s.sp := by
  have hname : idx = 31 ↔ idx.toNat = 31 := BitVec.toNat_inj.symm
  cases useSp with
  | false => rfl
  | true => simp only [updateSingle64BitGPR, if_true, hname, true_and]

namespace Represents

variable {r : IntRegs} {s : State m} (h : Represents r s) (idx : BitVec 5) (val : ℤ)

include h

theorem read : get64BitGPR s idx true = BitVec.ofInt 64 (r.read idx) := by
  have hchain : get64BitGPR s idx true = _ := selectChain_gpr s.gprs s.sp idx
  rw [hchain, IntRegs.read]
  by_cases hidx : idx.toNat < 31
  · rw [dif_pos hidx, dif_pos hidx, h.x]
  · rw [dif_neg hidx, dif_neg hidx, h.sp]

/-- A write to a register that exists, and one to index 31. -/
theorem x_update (useSp : Bool) (hidx : idx.toNat < 31) (i : Fin 31) :
    (updateSingle64BitGPR s idx (BitVec.ofInt 64 val) useSp).gprs i =
      BitVec.ofInt 64 (Function.update r.x ⟨idx.toNat, hidx⟩ val i) := by
  rw [updateSingle64BitGPR_gprs, Function.update_apply]
  by_cases hi : idx.toNat = i
  · rw [if_pos hi, if_pos (Fin.ext hi.symm)]
  · rw [if_neg hi, if_neg fun heq => hi (congrArg Fin.val heq).symm, h.x]

theorem x_keep (useSp : Bool) (hidx : ¬idx.toNat < 31) (i : Fin 31) :
    (updateSingle64BitGPR s idx (BitVec.ofInt 64 val) useSp).gprs i = BitVec.ofInt 64 (r.x i) := by
  rw [updateSingle64BitGPR_gprs, if_neg (by omega), h.x]

theorem write :
    Represents (r.write idx val) (updateSingle64BitGPR s idx (BitVec.ofInt 64 val) true) := by
  unfold IntRegs.write
  by_cases hidx : idx.toNat < 31
  · rw [dif_pos hidx]
    refine ⟨h.x_update idx val true hidx, ?_⟩
    rw [updateSingle64BitGPR_sp, if_neg (by omega)]
    exact h.sp
  · rw [dif_neg hidx]
    refine ⟨h.x_keep idx val true hidx, ?_⟩
    have hlt := idx.isLt
    rw [updateSingle64BitGPR_sp, if_pos ⟨rfl, by omega⟩]

theorem writeX :
    Represents (r.writeX idx val) (updateSingle64BitGPR s idx (BitVec.ofInt 64 val)) := by
  unfold IntRegs.writeX
  by_cases hidx : idx.toNat < 31
  · rw [dif_pos hidx]
    exact ⟨h.x_update idx val false hidx, h.sp⟩
  · rw [dif_neg hidx]
    exact ⟨h.x_keep idx val false hidx, h.sp⟩

end Represents

/-! ## Steps and runs -/

/-- The product of the source, as a wrapped integer. -/
theorem ofNat_mul_signExtend (n : ℕ) (imm : BitVec 6) :
    BitVec.ofNat 64 n * imm.signExtend 64 = BitVec.ofInt 64 (imm.toInt * n) := by
  rw [Int.mul_comm, BitVec.ofInt_mul, BitVec.ofInt_natCast]
  rfl

theorem pRegWidth_div (m : ArmSme) : m.pRegWidth / 8 = m.svl / 64 := Nat.div_div_eq_div_mul ..

/-- One instruction keeps the registers and the integers in step. -/
theorem Represents.step {r : IntRegs} {s : State m} (h : Represents r s) (fp : FpFunctions)
    (l : LengthOp × Inputs m) : Represents (r.step l) (exec fp l.1.toInstr l.2 s) := by
  rcases l with ⟨op, inp⟩
  cases op with
  | addspl =>
      have hval : BitVec.ofNat 64 (m.pRegWidth / 8) * inp.imm6.signExtend 64 +
          get64BitGPR s inp.rn true =
            BitVec.ofInt 64 (r.read inp.rn + inp.imm6.toInt * (m.svl / 64 : ℕ)) := by
        rw [ofNat_mul_signExtend, h.read, ← BitVec.ofInt_add, Int.add_comm, pRegWidth_div]
      show Represents _ (addspl s inp)
      rw [addspl, hval]
      exact h.write ..
  | addsvl =>
      have hval : BitVec.ofNat 64 (m.svl / 8) * inp.imm6.signExtend 64 +
          get64BitGPR s inp.rn true =
            BitVec.ofInt 64 (r.read inp.rn + inp.imm6.toInt * (m.svl / 8 : ℕ)) := by
        rw [ofNat_mul_signExtend, h.read, ← BitVec.ofInt_add, Int.add_comm]
      show Represents _ (addsvl s inp)
      rw [addsvl, hval]
      exact h.write ..
  | rdsvl =>
      show Represents _ (rdsvl s inp)
      rw [rdsvl, ofNat_mul_signExtend]
      exact h.writeX ..

theorem Represents.run {r : IntRegs} {s : State m} (h : Represents r s) (fp : FpFunctions)
    (ls : List (LengthOp × Inputs m)) :
    Represents (ls.foldl IntRegs.step r)
      (execAll fp (ls.map fun l => (l.1.toInstr, l.2)) s) := by
  induction ls generalizing r s with
  | nil => exact h
  | cons l ls ih => exact ih (h.step fp l)

/-- Nothing but the destination changes; `RDSVL` leaves `SP` alone. -/
theorem lengthOp_frame (fp : FpFunctions) (op : LengthOp) (inp : Inputs m) (s : State m) :
    (∀ i : Fin 31, inp.rd.toNat ≠ i → (exec fp op.toInstr inp s).gprs i = s.gprs i) ∧
    (inp.rd ≠ 31 ∨ op = .rdsvl → (exec fp op.toInstr inp s).sp = s.sp) ∧
    exec fp op.toInstr inp s = { s with
      gprs := (exec fp op.toInstr inp s).gprs, sp := (exec fp op.toInstr inp s).sp } := by
  obtain ⟨val, useSp, hexec, hrdsvl⟩ : ∃ val useSp,
      exec fp op.toInstr inp s = updateSingle64BitGPR s inp.rd val useSp ∧
        (op = .rdsvl → useSp = false) := by
    cases op with
    | addspl => exact ⟨_, true, rfl, fun h => nomatch h⟩
    | addsvl => exact ⟨_, true, rfl, fun h => nomatch h⟩
    | rdsvl => exact ⟨_, false, rfl, fun _ => rfl⟩
  rw [hexec]
  refine ⟨?_, ?_, rfl⟩
  · intro i hne
    rw [updateSingle64BitGPR_gprs, if_neg hne]
  · intro h
    rw [updateSingle64BitGPR_sp, if_neg]
    rintro ⟨husp, hidx⟩
    rcases h with hne | hop
    · exact hne (BitVec.eq_of_toNat_eq hidx)
    · exact absurd (hrdsvl hop) (by simp [husp])

/-! ## Eight predicate lengths are one vector length -/

section Same

variable (s : State m) (idx : BitVec 5) (val val' : BitVec 64)

theorem get64BitGPR_updateSingle64BitGPR :
    get64BitGPR (updateSingle64BitGPR s idx val true) idx true = val := by
  have hchain : get64BitGPR (updateSingle64BitGPR s idx val true) idx true = _ :=
    selectChain_gpr (updateSingle64BitGPR s idx val true).gprs
      (updateSingle64BitGPR s idx val true).sp idx
  have hlt := idx.isLt
  rw [hchain]
  by_cases hidx : idx.toNat < 31
  · rw [dif_pos hidx, updateSingle64BitGPR_gprs, if_pos rfl]
  · rw [dif_neg hidx, updateSingle64BitGPR_sp, if_pos ⟨rfl, by omega⟩]

theorem updateSingle64BitGPR_updateSingle64BitGPR :
    updateSingle64BitGPR (updateSingle64BitGPR s idx val true) idx val' true =
      updateSingle64BitGPR s idx val' true := by
  have hgprs : (updateSingle64BitGPR (updateSingle64BitGPR s idx val true) idx val' true).gprs =
      (updateSingle64BitGPR s idx val' true).gprs := by
    funext i
    rw [updateSingle64BitGPR_gprs, updateSingle64BitGPR_gprs, updateSingle64BitGPR_gprs]
    split <;> rfl
  have hsp : (updateSingle64BitGPR (updateSingle64BitGPR s idx val true) idx val' true).sp =
      (updateSingle64BitGPR s idx val' true).sp := by
    rw [updateSingle64BitGPR_sp, updateSingle64BitGPR_sp, updateSingle64BitGPR_sp]
    split <;> rfl
  exact State.ext rfl rfl rfl rfl hsp rfl rfl hgprs rfl rfl rfl

end Same

/-- `n + 1` times `ADDSPL Rd, Rd, #i`. -/
theorem execAll_addspl (fp : FpFunctions) (inp : Inputs m) (rd : BitVec 5) (n : ℕ) (s : State m) :
    execAll fp (List.replicate (n + 1) (.addspl, { inp with rn := rd, rd := rd })) s =
      updateSingle64BitGPR s rd (get64BitGPR s rd true +
        (n + 1 : ℕ) * (BitVec.ofNat 64 (m.pRegWidth / 8) * inp.imm6.signExtend 64)) true := by
  have hstep : ∀ s : State m, exec fp .addspl { inp with rn := rd, rd := rd } s =
      updateSingle64BitGPR s rd (BitVec.ofNat 64 (m.pRegWidth / 8) * inp.imm6.signExtend 64 +
        get64BitGPR s rd true) true := fun _ => rfl
  induction n generalizing s with
  | zero =>
      show exec fp .addspl { inp with rn := rd, rd := rd } s = _
      rw [hstep, Nat.zero_add, Nat.cast_one, one_mul, add_comm]
  | succ n ih =>
      show execAll fp (List.replicate (n + 1) (.addspl, { inp with rn := rd, rd := rd }))
        (exec fp .addspl { inp with rn := rd, rd := rd } s) = _
      rw [ih, hstep, get64BitGPR_updateSingle64BitGPR, updateSingle64BitGPR_updateSingle64BitGPR,
        Nat.cast_succ (n + 1), add_mul, one_mul]
      congr 1
      abel

theorem eight_mul_div (m : ArmSme) : 8 * (m.pRegWidth / 8) = m.svl / 8 := by
  rcases m.sixteen_dvd_svlB with ⟨c, hc⟩
  show 8 * (m.svlB / 8) = m.svl / 8
  rw [m.svl_eq, Nat.mul_div_cancel _ (by decide), hc]
  omega

theorem addspl_eight (fp : FpFunctions) (inp : Inputs m) (rd : BitVec 5) (s : State m) :
    execAll fp (List.replicate 8 (.addspl, { inp with rn := rd, rd := rd })) s =
      exec fp .addsvl { inp with rn := rd, rd := rd } s := by
  rw [execAll_addspl]
  show _ = updateSingle64BitGPR s rd (BitVec.ofNat 64 (m.svl / 8) * inp.imm6.signExtend 64 +
    get64BitGPR s rd true) true
  rw [← eight_mul_div, BitVec.ofNat_mul]
  congr 1
  rw [add_comm, ← mul_assoc]
  rfl

/-- After any sequence the registers are those of the integer interpreter
modulo `2 ^ 64`; a step touches its destination only; and eight `ADDSPL` on one
register are one `ADDSVL`. -/
theorem vector_length_exact (fp : FpFunctions) (m : ArmSme) (s : State m) :
    (∀ ls : List (LengthOp × Inputs m),
      Represents (ls.foldl IntRegs.step (IntRegs.ofState s))
        (execAll fp (ls.map fun l => (l.1.toInstr, l.2)) s)) ∧
    (∀ (op : LengthOp) (inp : Inputs m),
      (∀ i : Fin 31, inp.rd.toNat ≠ i → (exec fp op.toInstr inp s).gprs i = s.gprs i) ∧
      (inp.rd ≠ 31 ∨ op = .rdsvl → (exec fp op.toInstr inp s).sp = s.sp) ∧
      exec fp op.toInstr inp s = { s with
        gprs := (exec fp op.toInstr inp s).gprs, sp := (exec fp op.toInstr inp s).sp }) ∧
    ∀ (inp : Inputs m) (rd : BitVec 5),
      execAll fp (List.replicate 8 (.addspl, { inp with rn := rd, rd := rd })) s =
        exec fp .addsvl { inp with rn := rd, rd := rd } s := by
  refine ⟨(represents_ofState s).run fp, ?_, ?_⟩
  · intro op inp
    exact lengthOp_frame fp op inp s
  · intro inp rd
    exact addspl_eight fp inp rd s

/-- `ADDSVL SP, X1, #-1`, and an `RDSVL` whose result is discarded. -/
theorem vector_length_exact_sp :
    let s : State smeDramLE := { (default : State smeDramLE) with gprs := fun _ => 5 }
    let add : Inputs smeDramLE :=
      { (default : Inputs smeDramLE) with rn := 1, rd := 31, imm := 0x3F }
    let read : Inputs smeDramLE := { (default : Inputs smeDramLE) with rd := 31, imm := 1 }
    (execAll default [(.addsvl, add), (.rdsvl, read)] s).sp = -11 := by
  intro s add read
  have h := (vector_length_exact default smeDramLE s).1 [(.addsvl, add), (.rdsvl, read)]
  exact h.sp.trans (by decide)

end ArmSmeIla
