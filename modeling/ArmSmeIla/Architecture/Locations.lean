import ArmSmeIla.Architecture.Refinement
import ArmSmeIla.Foundation.Machines

/-!
# Locations

The state cut as finely as the inputs of a step can tell: single registers,
single rows of ZA, and DRAM as a whole, since its addresses are data. For each
label the locations its result depends on and those it may change; with these
tables the model is a machine over locations.
-/

namespace ArmSmeIla

open Arch

variable {m : ArmSme}

/-- A place that a step reads or writes. DRAM comes with the captured write. -/
inductive Loc (m : ArmSme) where
  | faults
  | sm
  | zaOn
  | row (r : RowIdx m)
  | z (n : Fin 32)
  | p (n : Fin 16)
  | x (n : Fin 31)
  | sp
  | mem
deriving DecidableEq

namespace Loc

def Value : Loc m → Type
  | faults => BitVec 8
  | sm | zaOn => Bool
  | row _ | z _ => BitVec m.svl
  | p _ => BitVec m.pRegWidth
  | x _ | sp => BitVec 64
  | mem => DramMem × BitVec m.svl × BitVec 128

def get : (l : Loc m) → State m → l.Value
  | faults, s => s.faults
  | sm, s => s.pstateSm
  | zaOn, s => s.pstateZa
  | row r, s => rows s.za r
  | z n, s => s.zRegs n
  | p n, s => s.pRegs n
  | x n, s => s.gprs n
  | sp, s => s.sp
  | mem, s => (s.dram, s.wbSvlVector, s.wbBaseAddr)

/-! ## Places named by inputs -/

def ofZ (n : BitVec 5) : Loc m := .z n.toFin

def ofP (n : BitVec 4) : Loc m := .p n.toFin

/-- Index 31 is no register here. -/
def ofX (n : BitVec 5) : Set (Loc m) := {l | ∃ h : n.toNat < 31, l = .x ⟨n.toNat, h⟩}

/-- Index 31 is `SP`. -/
def ofXSp (n : BitVec 5) : Loc m := if h : n.toNat < 31 then .x ⟨n.toNat, h⟩ else .sp

@[simp]
theorem eq_ofXSp_iff (l : Loc m) (n : BitVec 5) :
    l = ofXSp n ↔ match l with
      | .x k => (k : ℕ) = n.toNat
      | .sp => n.toNat = 31
      | _ => False := by
  have hlt := n.isLt
  unfold ofXSp
  split
  case isTrue h => cases l <;> simp [Fin.ext_iff, h.ne]
  case isFalse h =>
    have hsp : n.toNat = 31 := by omega
    cases l with
    | x k => exact iff_of_false nofun fun hk => h (hk ▸ k.isLt)
    | sp => exact iff_of_true rfl hsp
    | _ => exact iff_of_false nofun id

def ofTile (esize : ElementSize) (selector : BitVec m.log2SvlB) : Set (Loc m) :=
  {l | ∃ r, tileIn esize r = tileOf esize selector ∧ l = .row r}

/-- The rows that `ZERO` clears. -/
def ofMask (imm : BitVec 8) : Set (Loc m) :=
  {l | ∃ r : RowIdx m, (imm.getLsbD (r % 8) = true ∧ (r : ℕ) < 64) ∧ l = .row r}

end Loc

open Loc

/-! ## The tables -/

/-- What the decode condition of an instruction depends on. -/
def Instr.modeReads : Instr → Set (Loc m)
  | .smstart | .smstop | .addspl | .addsvl | .rdsvl => ∅
  | .psel _ | .revd | .sclamp _ | .uclamp _ => ∅
  | .zero | .ldr | .str => {.zaOn}
  | _ => {.sm, .zaOn}

/-- What the results of a step depend on, the old values of what it changes
apart. -/
def operands : Label m → Set (Loc m)
  | (.smstart, _) | (.smstop, _) | (.zero, _) | (.rdsvl, _) => ∅
  | (.movaT2V esize, inp) => {ofP inp.pg, ofZ inp.zd} ∪ ofX inp.rs ∪ ofTile esize inp.zan
  | (.movaV2T _, inp) => {ofP inp.pg, ofZ inp.zn} ∪ ofX inp.rs
  | (.addha _, inp) | (.addva _, inp) => {ofP inp.pn, ofP inp.pm, ofZ inp.zn}
  | (.integerOuterProduct _ _, inp) | (.wideningOuterProduct _, inp) | (.fmopa _, inp)
  | (.fmops _, inp) => {ofP inp.pn, ofP inp.pm, ofZ inp.zn, ofZ inp.zm}
  | (.addspl, inp) | (.addsvl, inp) => {ofXSp inp.rn}
  | (.ld1 _, inp) => {ofP inp.pg, ofXSp inp.rn, .mem} ∪ ofX inp.rm ∪ ofX inp.rs
  | (.st1 esize, inp) =>
      {ofP inp.pg, ofXSp inp.rn, .mem} ∪ ofX inp.rm ∪ ofX inp.rs ∪ ofTile esize inp.zat
  | (.ldr, inp) => {ofXSp inp.rn, .mem} ∪ ofX inp.rv
  | (.str, inp) => {ofXSp inp.rn} ∪ ofX inp.rv ∪ Set.range .row
  | (.psel _, inp) => {ofP inp.pn, ofP inp.pm} ∪ ofX inp.rv
  | (.revd, inp) => {ofP inp.pg, ofZ inp.zn, ofZ inp.zd}
  | (.sclamp _, inp) | (.uclamp _, inp) => {ofZ inp.zn, ofZ inp.zm, ofZ inp.zd}

def reads (l : Label m) : Set (Loc m) := operands l ∪ l.1.modeReads

/-- What a step may change. -/
def writes : Label m → Set (Loc m)
  | (.smstart, _) => {.sm, .zaOn} ∪ Set.range .z ∪ Set.range .p ∪ Set.range .row
  | (.smstop, _) => {.sm, .zaOn} ∪ Set.range .z ∪ Set.range .p
  | (.movaT2V _, inp) | (.revd, inp) | (.sclamp _, inp) | (.uclamp _, inp) => {ofZ inp.zd}
  | (.movaV2T esize, inp) => ofTile esize inp.zad
  | (.zero, inp) => ofMask inp.imm
  | (.addha esize, inp) | (.addva esize, inp) | (.integerOuterProduct _ esize, inp)
  | (.fmopa esize, inp) | (.fmops esize, inp) => ofTile esize inp.zada
  | (.wideningOuterProduct _, inp) => ofTile .word inp.zada
  | (.addspl, inp) | (.addsvl, inp) => {ofXSp inp.rd}
  | (.rdsvl, inp) => ofX inp.rd
  | (.ld1 esize, inp) => {.faults} ∪ ofTile esize inp.zat
  | (.ldr, _) => {.faults} ∪ Set.range .row
  | (.st1 _, _) | (.str, _) => {.mem, .faults}
  | (.psel _, inp) => {ofP inp.pd}

/-- Locations that get a value independent of their old one, if any: registers
are written as a whole, but rows of ZA are usually merged into. -/
def Instr.Replaces (i : Instr) : Loc m → Prop
  | .faults | .mem => False
  | .row _ => i = .smstart ∨ i = .zero
  | _ => True

def kills (l : Label m) : Set (Loc m) := {loc | loc ∈ writes l ∧ l.1.Replaces loc}

/-! ## Agreement on operands -/

section Agreement

def AgreeOn (L : Set (Loc m)) (s t : State m) : Prop := ∀ l ∈ L, l.get s = l.get t

variable {s t : State m} {L L' : Set (Loc m)}

@[simp]
theorem agreeOn_union : AgreeOn (L ∪ L') s t ↔ AgreeOn L s t ∧ AgreeOn L' s t :=
  forall₂_or_left

@[simp]
theorem agreeOn_insert (l : Loc m) : AgreeOn (insert l L) s t ↔ l.get s = l.get t ∧ AgreeOn L s t :=
  Set.forall_mem_insert

@[simp]
theorem agreeOn_singleton (l : Loc m) : AgreeOn {l} s t ↔ l.get s = l.get t :=
  forall_eq

/-- What a state shows, with no fault counted. -/
abbrev shown (s : State m) : Arch.State m := view s 0

@[simp]
theorem agreeOn_range_row : AgreeOn (Set.range .row) s t ↔ (shown s).za = (shown t).za :=
  Set.forall_mem_range.trans funext_iff.symm

@[simp]
theorem get_mem : Loc.mem.get s = Loc.mem.get t ↔ (shown s).mem = (shown t).mem ∧
    s.wbSvlVector = t.wbSvlVector ∧ s.wbBaseAddr = t.wbBaseAddr :=
  read_dram_iff s t

@[simp]
theorem get_ofZ (n : BitVec 5) : (ofZ n).get s = (shown s).zReg n := rfl

@[simp]
theorem get_ofP (n : BitVec 4) : (ofP n).get s = (shown s).pReg n := rfl

@[simp]
theorem agreeOn_ofX (n : BitVec 5) : AgreeOn (ofX n) s t ↔ (shown s).xReg n = (shown t).xReg n := by
  unfold Arch.State.xReg
  by_cases h : n.toNat < 31
  · rw [dif_pos h, dif_pos h]
    constructor
    · intro hs
      exact hs _ ⟨h, rfl⟩
    · rintro hs l ⟨_, rfl⟩
      exact hs
  · rw [dif_neg h, dif_neg h]
    refine iff_of_true ?_ rfl
    rintro l ⟨hlt, -⟩
    exact absurd hlt h

@[simp]
theorem get_ofXSp (n : BitVec 5) :
    (ofXSp n).get s = (ofXSp n).get t ↔ (shown s).xRegSp n = (shown t).xRegSp n := by
  unfold Arch.State.xRegSp ofXSp
  by_cases h : n.toNat < 31
  · rw [dif_pos h, dif_pos h, dif_pos h]
    exact Iff.rfl
  · rw [dif_neg h, dif_neg h, dif_neg h]
    exact Iff.rfl

theorem row_of_ofTile {esize : ElementSize} {selector : BitVec m.log2SvlB}
    (h : AgreeOn (ofTile esize selector) s t) {r : RowIdx m}
    (hr : tileIn esize r = tileOf esize selector) : rows s.za r = rows t.za r :=
  h (.row r) ⟨r, hr, rfl⟩

/-- A slice is read off the rows of its tile. -/
theorem slice_of_ofTile {esize : ElementSize} {selector : BitVec m.log2SvlB}
    (h : AgreeOn (ofTile esize selector) s t) (isVertical : Bool) (k : SliceIdx m esize) :
    slice isVertical (tileOf esize selector) k (rows s.za) =
      slice isVertical (tileOf esize selector) k (rows t.za) := by
  have hrow : ∀ r : SliceIdx m esize, rows s.za (rowAt (tileOf esize selector) r) =
      rows t.za (rowAt (tileOf esize selector) r) := fun r => row_of_ofTile h (tileIn_rowAt _ r)
  unfold slice
  simp only [hrow]

end Agreement

/-! ## Rows of ZA -/

section Rows

variable (fp : FpFunctions)

theorem mapTile_of_not_mem {esize : ElementSize} {selector : BitVec m.log2SvlB} {r : RowIdx m}
    (h : Loc.row r ∉ ofTile esize selector)
    (f : SliceIdx m esize → SliceIdx m esize → BitVec esize.bits → BitVec esize.bits)
    (za : ZaArray m) : mapTile (tileOf esize selector) f za r = za r :=
  if_neg fun hc => h ⟨r, hc, rfl⟩

theorem mapTile_congr {esize : ElementSize} {t : TileIdx esize}
    {f g : SliceIdx m esize → SliceIdx m esize → BitVec esize.bits → BitVec esize.bits}
    {za za' : ZaArray m} {r : RowIdx m} (hf : f = g) (hrow : za r = za' r) :
    mapTile t f za r = mapTile t g za' r := by
  unfold mapTile
  rw [hf, hrow]

/-- A step changes rows of the table only. -/
theorem newZa_frame (a : Arch.State m) (inp : Inputs m) {i : Instr} {r : RowIdx m}
    (h : Loc.row r ∉ writes (i, inp)) : a.newZa inp fp i r = a.za r := by
  unfold Arch.State.newZa
  cases i with
  | smstart => exact absurd (Or.inr ⟨r, rfl⟩) h
  | movaV2T esize | addha esize | addva esize | integerOuterProduct op esize
  | wideningOuterProduct op | fmopa esize | fmops esize => exact mapTile_of_not_mem h _ _
  | zero => exact if_neg fun hc => h ⟨r, hc, rfl⟩
  | ld1 esize => exact mapTile_of_not_mem (fun hc => h (Or.inr hc)) _ _
  | ldr => exact absurd (Or.inr ⟨r, rfl⟩) h
  | _ => rfl

variable {s t : State m} {inp : Inputs m}

theorem newZa_determined {i : Instr} (h : AgreeOn (operands (i, inp)) s t) {r : RowIdx m}
    (hrow : Loc.row r ∉ kills (i, inp) → rows s.za r = rows t.za r) :
    (shown s).newZa inp fp i r = (shown t).newZa inp fp i r := by
  have hold : ¬ i.Replaces (.row r) → (shown s).za r = (shown t).za r :=
    fun hnot => hrow fun hk => hnot hk.2
  unfold Arch.State.newZa
  cases i with
  | smstart => rfl
  | zero =>
      by_cases hc : inp.imm.getLsbD (r % 8) = true ∧ (r : ℕ) < 64
      · exact (if_pos hc).trans (if_pos hc).symm
      · refine (if_neg hc).trans (Eq.trans ?_ (if_neg hc).symm)
        refine hrow fun hk => hc ?_
        rcases hk.1 with ⟨_, hc', heq⟩
        cases heq
        exact hc'
  | movaV2T esize =>
      simp [operands] at h
      simp only [Arch.State.sliceAt, Arch.State.index, Arch.State.wSum, h]
      exact mapTile_congr rfl (hold (by simp [Instr.Replaces]))
  | addha esize | addva esize | integerOuterProduct op esize | wideningOuterProduct op
  | fmopa esize | fmops esize =>
      simp [operands] at h
      simp only [Arch.State.both, h]
      exact mapTile_congr rfl (hold (by simp [Instr.Replaces]))
  | ld1 esize =>
      simp [operands] at h
      simp only [Arch.State.sliceAt, Arch.State.index, Arch.State.wSum, Arch.State.typedBase, h]
      exact mapTile_congr rfl (hold (by simp [Instr.Replaces]))
  | ldr =>
      simp [operands] at h
      simp only [Arch.State.rowAt, Arch.State.index, Arch.State.wSum, Arch.State.rowBase, h,
        Function.update_apply, hold (by simp [Instr.Replaces])]
  | _ => exact hold (by simp [Instr.Replaces])

end Rows

/-! ## Registers and modes -/

section Registers

variable {s t : State m} {inp : Inputs m} {i : Instr}

theorem newZ_frame (a : Arch.State m) (inp : Inputs m) {n : Fin 32}
    (h : Loc.z n ∉ writes (i, inp)) : a.newZ inp i n = a.z n := by
  unfold Arch.State.newZ
  cases i with
  | smstart | smstop => exact absurd (by simp [writes]) h
  | movaT2V esize | revd | sclamp esize | uclamp esize =>
      exact Function.update_of_ne (fun hc => h (congrArg Loc.z hc)) _ _
  | _ => rfl

theorem newZ_determined (h : AgreeOn (operands (i, inp)) s t) {n : Fin 32}
    (hz : Loc.z n ∉ kills (i, inp) → s.zRegs n = t.zRegs n) :
    (shown s).newZ inp i n = (shown t).newZ inp i n := by
  by_cases hw : Loc.z n ∈ writes (i, inp)
  · unfold Arch.State.newZ
    cases i with
    | smstart | smstop => rfl
    | movaT2V esize =>
        obtain rfl : n = inp.zd.toFin := Loc.z.inj hw
        simp [operands] at h
        simp only [Arch.State.sliceAt, Arch.State.index, Arch.State.wSum, h]
        have hslice := slice_of_ofTile h.2 inp.hv
        simp only [show ∀ u : State m, (shown u).za = rows u.za from fun _ => rfl, hslice,
          Arch.State.setZ, Function.update_self]
    | revd | sclamp esize | uclamp esize =>
        obtain rfl : n = inp.zd.toFin := Loc.z.inj hw
        simp [operands] at h
        simp only [h, Arch.State.setZ, Function.update_self]
    | _ => exact absurd hw (by simp [writes, ofTile, ofMask, ofX, ofP])
  · rw [newZ_frame _ _ hw, newZ_frame _ _ hw]
    exact hz fun hk => hw hk.1

theorem newP_frame (a : Arch.State m) (inp : Inputs m) {n : Fin 16}
    (h : Loc.p n ∉ writes (i, inp)) : a.newP inp i n = a.p n := by
  unfold Arch.State.newP
  cases i with
  | smstart | smstop => exact absurd (by simp [writes]) h
  | psel esize => exact Function.update_of_ne (fun hc => h (congrArg Loc.p hc)) _ _
  | _ => rfl

theorem newP_determined (h : AgreeOn (operands (i, inp)) s t) {n : Fin 16}
    (hp : Loc.p n ∉ kills (i, inp) → s.pRegs n = t.pRegs n) :
    (shown s).newP inp i n = (shown t).newP inp i n := by
  by_cases hw : Loc.p n ∈ writes (i, inp)
  · unfold Arch.State.newP
    cases i with
    | smstart | smstop => rfl
    | psel esize =>
        obtain rfl : n = inp.pd.toFin := Loc.p.inj hw
        simp [operands] at h
        simp only [Arch.State.index, Arch.State.wSum, h, Arch.State.setP, Function.update_self]
        rfl
    | _ => exact absurd hw (by simp [writes, ofTile, ofMask, ofX, ofZ])
  · rw [newP_frame _ _ hw, newP_frame _ _ hw]
    exact hp fun hk => hw hk.1

theorem setX_of_mem (a : Arch.State m) {idx : BitVec 5} (val : BitVec 64) {n : Fin 31}
    (h : Loc.x n ∈ ofX (m := m) idx) : (a.setX idx val).x n = val := by
  rcases h with ⟨hlt, heq⟩
  cases heq
  rw [Arch.State.setX, dif_pos hlt]
  exact Function.update_self _ _ _

theorem setX_of_not_mem (a : Arch.State m) {idx : BitVec 5} (val : BitVec 64) {n : Fin 31}
    (h : Loc.x n ∉ ofX (m := m) idx) : (a.setX idx val).x n = a.x n := by
  unfold Arch.State.setX
  split
  case isTrue hlt => exact Function.update_of_ne (fun hc => h ⟨hlt, congrArg Loc.x hc⟩) _ _
  · rfl

@[simp]
theorem setX_sp (a : Arch.State m) (idx : BitVec 5) (val : BitVec 64) :
    (a.setX idx val).sp = a.sp := by
  unfold Arch.State.setX
  split <;> rfl

theorem setXSp_x (a : Arch.State m) (idx : BitVec 5) (val : BitVec 64) (n : Fin 31) :
    (a.setXSp idx val).x n = if Loc.x n = ofXSp (m := m) idx then val else a.x n := by
  unfold Arch.State.setXSp ofXSp
  split
  · simp only [Function.update_apply, Loc.x.injEq]
  · exact (if_neg nofun).symm

theorem setXSp_sp (a : Arch.State m) (idx : BitVec 5) (val : BitVec 64) :
    (a.setXSp idx val).sp = if Loc.sp = ofXSp (m := m) idx then val else a.sp := by
  unfold Arch.State.setXSp ofXSp
  split
  · exact (if_neg nofun).symm
  · exact (if_pos rfl).symm

theorem newX_frame (a : Arch.State m) (inp : Inputs m) :
    (∀ n, Loc.x n ∉ writes (i, inp) → (newX a inp i).x n = a.x n) ∧
      (Loc.sp ∉ writes (i, inp) → (newX a inp i).sp = a.sp) := by
  unfold newX
  cases i with
  | addspl | addsvl =>
      exact ⟨fun n hn => (setXSp_x a _ _ n).trans (if_neg hn), fun hn =>
        (setXSp_sp a _ _).trans (if_neg hn)⟩
  | rdsvl => exact ⟨fun n hn => setX_of_not_mem a _ hn, fun _ => setX_sp a _ _⟩
  | _ => exact ⟨fun _ _ => rfl, fun _ => rfl⟩

theorem newX_determined (h : AgreeOn (operands (i, inp)) s t) :
    (∀ n, (Loc.x n ∉ kills (i, inp) → s.gprs n = t.gprs n) →
        (newX (shown s) inp i).x n = (newX (shown t) inp i).x n) ∧
      ((Loc.sp ∉ kills (i, inp) → s.sp = t.sp) →
        (newX (shown s) inp i).sp = (newX (shown t) inp i).sp) := by
  have hx := newX_frame (i := i) (shown s) inp
  have hx' := newX_frame (i := i) (shown t) inp
  constructor
  · intro n hold
    by_cases hw : Loc.x n ∈ writes (i, inp)
    · unfold newX
      cases i with
      | addspl | addsvl =>
          simp [operands] at h
          simp only [setXSp_x, h, if_pos (show Loc.x n = ofXSp inp.rd from hw)]
      | rdsvl => rw [setX_of_mem _ _ hw, setX_of_mem _ _ hw]
      | _ => exact absurd hw (by simp [writes, ofTile, ofMask, ofP, ofZ])
    · rw [hx.1 n hw, hx'.1 n hw]
      exact hold fun hk => hw hk.1
  · intro hold
    by_cases hw : Loc.sp ∈ writes (i, inp)
    · unfold newX
      cases i with
      | addspl | addsvl =>
          simp [operands] at h
          simp only [setXSp_sp, h, if_pos (show Loc.sp = ofXSp inp.rd from hw)]
      | _ => exact absurd hw (by simp [writes, ofTile, ofMask, ofP, ofZ, ofX])
    · rw [hx.2 hw, hx'.2 hw]
      exact hold fun hk => hw hk.1

end Registers

/-! ## Faults, modes and memory -/

section Rest

variable {s t : State m} {inp : Inputs m} {i : Instr}

theorem faulting_frame (h : Loc.faults ∉ writes (i, inp)) (a : Arch.State m) :
    faulting a inp i = false := by
  cases i with
  | ld1 esize | ldr => exact absurd (Or.inl rfl) h
  | st1 esize | str => exact absurd (Or.inr rfl) h
  | _ => rfl

/-- `SP` is looked at only if it is the base. -/
theorem faulting_determined (h : AgreeOn (operands (i, inp)) s t) :
    faulting (shown s) inp i = faulting (shown t) inp i := by
  unfold faulting
  cases i with
  | ld1 esize | st1 esize =>
      have hpg : (shown s).pReg inp.pg = (shown t).pReg inp.pg := h (ofP inp.pg) (by simp [operands])
      have hbase : (shown s).xRegSp inp.rn = (shown t).xRegSp inp.rn :=
        (get_ofXSp inp.rn).mp (h _ (by simp [operands]))
      refine decide_eq_decide.mpr (and_congr_right fun hrn => ?_)
      rw [hrn] at hbase
      have hsp : (shown s).sp = (shown t).sp := hbase
      rw [hsp, hpg]
  | ldr | str =>
      simp [operands] at h
      simp only [h]
  | _ => rfl

theorem newMode_frame {loc : Loc m} (hloc : loc = .sm ∨ loc = .zaOn)
    (h : loc ∉ writes (i, inp)) (b : Bool) : newMode i b = b := by
  cases i with
  | smstart | smstop => exact absurd (by rcases hloc with rfl | rfl <;> simp [writes]) h
  | _ => rfl

theorem newMode_determined {loc : Loc m} (hloc : loc = .sm ∨ loc = .zaOn) {b b' : Bool}
    (hold : loc ∉ kills (i, inp) → b = b') : newMode i b = newMode i b' := by
  cases i with
  | smstart | smstop => rfl
  | _ =>
      refine hold fun hk => absurd hk.1 ?_
      rcases hloc with rfl | rfl <;> simp [writes, ofTile, ofMask, ofX, ofZ, ofP]

theorem writes_dram_of_mem (h : Loc.mem ∉ writes (i, inp)) : i.writes .dram = false := by
  cases i with
  | st1 esize | str => exact absurd (Or.inl rfl) h
  | _ => rfl

theorem dramSetVector_congr (h : s.dram = t.dram) (base : BitVec 128) (v : BitVec m.svl)
    (esize : ElementSize) (convertEndianness : Bool) :
    Part.read .dram (dramSetVectorAsDramEndian s base v esize convertEndianness) =
      Part.read .dram (dramSetVectorAsDramEndian t base v esize convertEndianness) := by
  cases s
  cases t
  cases h
  rfl

theorem dram_st1_determined {esize : ElementSize} (h : AgreeOn (operands (.st1 esize, inp)) s t) :
    Part.read .dram (st1 s inp esize) = Part.read .dram (st1 t inp esize) := by
  have ht := toConstrainedTileIndex_toNat inp.zat esize
  simp [operands] at h
  have hdram : s.dram = t.dram := h.1.1.1.2.2.1
  have hpred : getPredicateRegister s inp.pg = getPredicateRegister t inp.pg := by
    rw [← view_pReg s 0, ← view_pReg t 0, h.1.1.1.1]
  have hbase : typedBaseAddr s inp esize = typedBaseAddr t inp esize := by
    rw [← view_typedBase s 0, ← view_typedBase t 0]
    simp only [Arch.State.typedBase, h]
  have hindex : (shown s).sliceAt inp esize = (shown t).sliceAt inp esize := by
    simp only [Arch.State.sliceAt, Arch.State.index, Arch.State.wSum, h]
  have hslice : getTypedSlice s.za inp.hv (toConstrainedTileIndex inp.zat esize)
        (sliceIdx s inp esize) esize =
      getTypedSlice t.za inp.hv (toConstrainedTileIndex inp.zat esize)
        (sliceIdx t inp esize) esize := by
    rw [getTypedSlice_eq_slice ht, getTypedSlice_eq_slice ht, ← view_sliceAt s 0,
      ← view_sliceAt t 0, hindex, slice_of_ofTile h.2]
  show Part.read .dram (dramSetVectorAsDramEndian s (typedBaseAddr s inp esize)
      (maskWithSinglePredicate
        (getTypedSlice s.za inp.hv (toConstrainedTileIndex inp.zat esize) (sliceIdx s inp esize)
          esize)
        (dramGetVectorAsZaEndian m s.dram (typedBaseAddr s inp esize) esize) esize
        (getPredicateRegister s inp.pg)) esize true) = _
  rw [hbase, hslice, hpred, hdram]
  exact dramSetVector_congr hdram _ _ esize true

theorem dram_str_determined (h : AgreeOn (operands (.str, inp)) s t) (hdram : s.dram = t.dram) :
    Part.read .dram (str s inp) = Part.read .dram (str t inp) := by
  simp [operands] at h
  have hbase : arrayAddr s inp = arrayAddr t inp := by
    rw [← view_rowBase s 0, ← view_rowBase t 0]
    simp only [Arch.State.rowBase, h]
  have hindex : (shown s).rowAt inp = (shown t).rowAt inp := by
    simp only [Arch.State.rowAt, Arch.State.index, Arch.State.wSum, h]
  have hrow : getTypedHorizontalSlice s.za (arrayRow s inp) (BitVec.ofNat m.zaAddrWidth 0) .byte =
      getTypedHorizontalSlice t.za (arrayRow t inp) (BitVec.ofNat m.zaAddrWidth 0) .byte := by
    have hza : rows s.za = rows t.za := h.2
    rw [getTypedHorizontalSlice_byte (toNat_eq_za0B m.zaAddrWidth),
      getTypedHorizontalSlice_byte (toNat_eq_za0B m.zaAddrWidth), ← view_rowAt s 0, ← view_rowAt t 0,
      hindex, hza]
  show Part.read .dram (dramSetVectorAsDramEndian s (arrayAddr s inp)
      (getTypedHorizontalSlice s.za (arrayRow s inp) (BitVec.ofNat m.zaAddrWidth 0) .byte)
      .byte false) = _
  rw [hbase, hrow]
  exact dramSetVector_congr hdram _ _ .byte false

theorem dram_determined (fp : FpFunctions) (h : AgreeOn (operands (i, inp)) s t)
    (hold : Loc.mem.get s = Loc.mem.get t) :
    Part.read .dram (exec fp i inp s) = Part.read .dram (exec fp i inp t) := by
  cases hw : i.writes .dram with
  | false => exact (exec_frame fp i inp s hw).trans (hold.trans (exec_frame fp i inp t hw).symm)
  | true =>
      rcases (writes_dram_iff i).mp hw with ⟨esize, rfl⟩ | rfl
      · exact dram_st1_determined h
      · exact dram_str_determined h (get_mem.mp hold).1

end Rest

/-! ## The machine -/

theorem get_frame (fp : FpFunctions) {l : Label m} {loc : Loc m} (s : State m)
    (h : loc ∉ writes l) : loc.get (exec fp l.1 l.2 s) = loc.get s := by
  rcases l with ⟨i, inp⟩
  cases loc with
  | faults =>
      refine (exec_faults_eq fp s inp i).trans (if_neg fun hf => ?_)
      rw [← faulting_iff s 0 inp i, faulting_frame h] at hf
      exact Bool.false_ne_true hf
  | sm => exact (modes_exec fp s inp i).1.trans (newMode_frame (Or.inl rfl) h _)
  | zaOn => exact (modes_exec fp s inp i).2.trans (newMode_frame (Or.inr rfl) h _)
  | row r => exact (congrFun (rows_exec fp s 0 inp i) r).trans (newZa_frame fp _ inp h)
  | z n => exact (congrFun (zRegs_exec fp s 0 inp i) n).trans (newZ_frame _ inp h)
  | p n => exact (congrFun (pRegs_exec fp s 0 inp i) n).trans (newP_frame _ inp h)
  | x n => exact (congrFun (gprs_exec fp s 0 inp i).1 n).symm.trans ((newX_frame _ inp).1 n h)
  | sp => exact (gprs_exec fp s 0 inp i).2.symm.trans ((newX_frame _ inp).2 h)
  | mem => exact exec_frame fp i inp s (writes_dram_of_mem h)

theorem get_determined (fp : FpFunctions) {l : Label m} {loc : Loc m} {s t : State m}
    (h : AgreeOn (operands l) s t) (hold : loc ∉ kills l → loc.get s = loc.get t) :
    loc.get (exec fp l.1 l.2 s) = loc.get (exec fp l.1 l.2 t) := by
  rcases l with ⟨i, inp⟩
  cases loc with
  | faults =>
      have hfaults : s.faults = t.faults := hold And.right
      have hiff : StepFaults s inp i ↔ StepFaults t inp i := by
        rw [← faulting_iff s 0 inp i, ← faulting_iff t 0 inp i, faulting_determined h]
      show (exec fp i inp s).faults = (exec fp i inp t).faults
      rw [exec_faults_eq, exec_faults_eq, hfaults]
      exact if_congr hiff rfl rfl
  | sm =>
      show (exec fp i inp s).pstateSm = (exec fp i inp t).pstateSm
      rw [(modes_exec fp s inp i).1, (modes_exec fp t inp i).1]
      exact newMode_determined (Or.inl rfl) hold
  | zaOn =>
      show (exec fp i inp s).pstateZa = (exec fp i inp t).pstateZa
      rw [(modes_exec fp s inp i).2, (modes_exec fp t inp i).2]
      exact newMode_determined (Or.inr rfl) hold
  | row r =>
      show rows (exec fp i inp s).za r = rows (exec fp i inp t).za r
      rw [rows_exec fp s 0, rows_exec fp t 0]
      exact newZa_determined fp h hold
  | z n =>
      show (exec fp i inp s).zRegs n = (exec fp i inp t).zRegs n
      rw [zRegs_exec fp s 0, zRegs_exec fp t 0]
      exact newZ_determined h hold
  | p n =>
      show (exec fp i inp s).pRegs n = (exec fp i inp t).pRegs n
      rw [pRegs_exec fp s 0, pRegs_exec fp t 0]
      exact newP_determined h hold
  | x n =>
      show (exec fp i inp s).gprs n = (exec fp i inp t).gprs n
      rw [← (gprs_exec fp s 0 inp i).1, ← (gprs_exec fp t 0 inp i).1]
      exact (newX_determined h).1 n hold
  | sp =>
      show (exec fp i inp s).sp = (exec fp i inp t).sp
      rw [← (gprs_exec fp s 0 inp i).2, ← (gprs_exec fp t 0 inp i).2]
      exact (newX_determined h).2 hold
  | mem => exact dram_determined fp h (hold And.right)

theorem decode_of_modeReads {l : Label m} {s t : State m} (h : AgreeOn l.1.modeReads s t)
    (hs : decode l.1 l.2 s = true) : decode l.1 l.2 t = true := by
  rcases l with ⟨i, inp⟩
  have hmodes : modeEnabled i s = modeEnabled i t := by
    unfold modeEnabled
    cases i with
    | smstart | smstop | addspl | addsvl | rdsvl | psel | revd | sclamp | uclamp => rfl
    | zero | ldr | str => exact h .zaOn rfl
    | _ =>
        have hsm : s.pstateSm = t.pstateSm := h .sm (Or.inl rfl)
        have hza : s.pstateZa = t.pstateZa := h .zaOn (Or.inr rfl)
        simp only [hsm, hza]
  unfold decode at hs ⊢
  rwa [← hmodes]

/-- The model as a machine over locations. -/
def machine (m : ArmSme) (fp : FpFunctions) : Machine (State m) (Label m) (Loc m) Loc.Value where
  get := Loc.get
  act l s := exec fp l.1 l.2 s
  enabled l s := decode l.1 l.2 s = true
  reads := reads
  writes := writes
  kills := kills
  ext := by
    intro s t h
    have hmem := get_mem.mp (h .mem)
    apply State.ext
    · exact h .faults
    · exact rows_injective (funext fun r => h (.row r))
    · exact h .sm
    · exact h .zaOn
    · exact h .sp
    · exact funext fun n => h (.z n)
    · exact funext fun n => h (.p n)
    · exact funext fun n => h (.x n)
    · exact hmem.1
    · exact hmem.2.1
    · exact hmem.2.2
  frame s h := get_frame fp s h
  guarded h := decode_of_modeReads fun l hl => h l (Or.inr hl)
  determined h := get_determined fp fun l hl => h l (Or.inl hl)

end ArmSmeIla
