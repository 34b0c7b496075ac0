import ArmSmeIla.Properties.Zero
import ArmSmeIla.Views.DramBlock
import ArmSmeIla.Views.Footprints

/-!
# Spill and fill of ZA rows

`STR` and `LDR` with the same immediate, vector select register and base pair
one row of ZA with one block of DRAM. The 16 immediates select 16 different
rows and 16 disjoint blocks, so each instruction keeps the pairs made by the
others, and the order does not matter.
-/

namespace ArmSmeIla

open Packing

variable {m : ArmSme} {fp : FpFunctions}

/-! ## Rows and blocks -/

/-- The row of immediate `imm`: `w + imm` in 32 bits, modulo `SVL_B`. -/
def spillRow (m : ArmSme) (w : BitVec 32) (imm : BitVec 4) : SliceIdx m .byte :=
  ⟨(w + imm.setWidth 32).toNat % m.svlB, Nat.mod_lt _ m.svlB_pos⟩

/-- The first address of its block. -/
def spillStart (m : ArmSme) (base : BitVec 64) (imm : BitVec 4) : ℕ :=
  base.toNat + imm.toNat * m.svlB

def spillBlock (m : ArmSme) (base : BitVec 64) (imm : BitVec 4) : BitVec 128 :=
  BitVec.ofNat 128 (spillStart m base imm)

theorem spillStart_lt (base : BitVec 64) (imm : BitVec 4) :
    spillStart m base imm + m.svlB < 2 ^ 128 := by
  have hbase := base.isLt
  have himm := imm.isLt
  have hsvlB := m.svlB_lt
  have hmul : imm.toNat * m.svlB ≤ 15 * m.svlB := Nat.mul_le_mul_right _ (by omega)
  unfold spillStart
  omega

theorem spillBlock_toNat (base : BitVec 64) (imm : BitVec 4) :
    (spillBlock m base imm).toNat = spillStart m base imm := by
  have h := spillStart_lt (m := m) base imm
  exact Nat.mod_eq_of_lt (by omega)

theorem inBlock_spillBlock (base : BitVec 64) (imm : BitVec 4) (addr : BitVec 128) :
    InBlock m (spillBlock m base imm) addr ↔
      spillStart m base imm ≤ addr.toNat ∧ addr.toNat < spillStart m base imm + m.svlB := by
  have h := spillStart_lt (m := m) base imm
  rw [inBlock_iff_toNat (by rw [spillBlock_toNat]; omega), spillBlock_toNat]

theorem spillBlock_disjoint (base : BitVec 64) {imm imm' : BitVec 4} (hne : imm ≠ imm')
    {addr : BitVec 128} (h : InBlock m (spillBlock m base imm) addr) :
    ¬ InBlock m (spillBlock m base imm') addr := by
  rw [inBlock_spillBlock] at h ⊢
  have hne' : imm.toNat ≠ imm'.toNat := fun heq => hne (BitVec.eq_of_toNat_eq heq)
  unfold spillStart at h ⊢
  rcases Nat.lt_or_gt_of_ne hne' with hlt | hgt
  · have hmul := offset_next_le hlt m.svlB
    omega
  · have hmul := offset_next_le hgt m.svlB
    omega

/-- Rows modulo 16 are consecutive, since 16 divides both `SVL_B` and `2 ^ 32`. -/
theorem spillRow_mod (w : BitVec 32) (imm : BitVec 4) :
    (spillRow m w imm : ℕ) % 16 = (w.toNat + imm.toNat) % 16 := by
  have himm := imm.isLt
  simp only [spillRow]
  rw [Nat.mod_mod_of_dvd _ m.sixteen_dvd_svlB, BitVec.toNat_add, BitVec.toNat_setWidth]
  omega

theorem spillRow_injective (w : BitVec 32) {imm imm' : BitVec 4}
    (h : spillRow m w imm = spillRow m w imm') : imm = imm' := by
  have hmod := spillRow_mod (m := m) w imm
  have hmod' := spillRow_mod (m := m) w imm'
  have himm := imm.isLt
  have himm' := imm'.isLt
  rw [h] at hmod
  apply BitVec.eq_of_toNat_eq
  omega

/-! The source's address formulas, in these terms. -/

theorem arrayAddr_eq (s : State m) (inp : Inputs m) :
    arrayAddr s inp = spillBlock m (get64BitGPR s inp.rn true) inp.imm4 := by
  have hlt := spillStart_lt (m := m) (get64BitGPR s inp.rn true) inp.imm4
  have hbase := (get64BitGPR s inp.rn true).isLt
  have himm := inp.imm4.isLt
  apply BitVec.eq_of_toNat_eq
  rw [spillBlock_toNat]
  unfold spillStart at hlt ⊢
  simp only [arrayAddr, BitVec.toNat_add, BitVec.toNat_mul, BitVec.toNat_setWidth,
    BitVec.toNat_ofNat, Nat.mul_mod_mod, Nat.mod_mul_mod, Nat.add_mod_mod, Nat.mod_add_mod]
  exact Nat.mod_eq_of_lt (by omega)

theorem sliceOf_arrayRow_val (s : State m) (inp : Inputs m) :
    (sliceOf m .byte (arrayRow s inp) : ℕ) = (arrayRow s inp).toNat := by
  have hlt := (arrayRow s inp).isLt
  rw [show 2 ^ Nat.log2 m.svlB = m.svlB from m.svlB_eq_pow.symm] at hlt
  exact Nat.mod_eq_of_lt hlt

theorem sliceOf_arrayRow (s : State m) (inp : Inputs m) :
    sliceOf m .byte (arrayRow s inp) = spillRow m (get32BitGPR s inp.rv) inp.imm4 := by
  have hrow : (arrayRow s inp).toNat = spillRow m (get32BitGPR s inp.rv) inp.imm4 := by
    rw [arrayRow, BitVec.extractLsb'_toNat, Nat.shiftRight_zero, show Nat.log2 m.svlB =
      m.log2SvlB from rfl, ← m.svlB_eq_pow]
    rfl
  apply Fin.ext
  rw [sliceOf_arrayRow_val, hrow]

/-! ## One transfer -/

/-- The ZA row and the DRAM block of an immediate hold the same vector. -/
def RowSaved (rv rn : BitVec 5) (imm : BitVec 4) (s : State m) : Prop :=
  lanes .byte (dramGetVectorAsZaEndian m s.dram (spillBlock m (get64BitGPR s rn true) imm) .byte
    false) = (tiles .byte s.za za0B).row (spillRow m (get32BitGPR s rv) imm)

section Transfer

variable (s : State m) (inp : Inputs m)

theorem str_dram_outside {addr : BitVec 128}
    (hout : ¬ InBlock m (spillBlock m (get64BitGPR s inp.rn true) inp.imm4) addr) :
    (str s inp).dram addr = s.dram addr := by
  rw [← arrayAddr_eq] at hout
  exact dramSetVector_outside s _ _ .byte false hout

/-- The block holds the row that `STR` wrote. -/
theorem dramGetVector_str :
    dramGetVectorAsZaEndian m (str s inp).dram (arrayAddr s inp) .byte false =
      getTypedHorizontalSlice s.za (arrayRow s inp) (BitVec.ofNat m.zaAddrWidth 0) .byte :=
  dramGetVector_dramSetVector s _ _ .byte false

theorem rowSaved_str : RowSaved inp.rv inp.rn inp.imm4 (str s inp) := by
  have hlanes := lanes_getTypedHorizontalSlice (t := za0B) s.za (arrayRow s inp)
    (toNat_eq_za0B m.zaAddrWidth)
  rw [← dramGetVector_str, sliceOf_arrayRow] at hlanes
  show lanes .byte (dramGetVectorAsZaEndian m (str s inp).dram
    (spillBlock m (get64BitGPR s inp.rn true) inp.imm4) .byte false) = _
  rw [← arrayAddr_eq]
  exact hlanes

theorem rowSaved_str_of_ne {imm : BitVec 4} (hne : imm ≠ inp.imm4)
    (h : RowSaved inp.rv inp.rn imm s) : RowSaved inp.rv inp.rn imm (str s inp) := by
  have hread := dramGetVector_congr (m := m) (spillBlock m (get64BitGPR s inp.rn true) imm) .byte
    false fun addr hin => str_dram_outside s inp (spillBlock_disjoint _ hne hin)
  exact (congrArg (lanes .byte) hread).trans h

theorem tiles_ldr :
    tiles .byte (ldr s inp).za = Function.update (tiles .byte s.za) za0B
      ((tiles .byte s.za za0B).updateRow (spillRow m (get32BitGPR s inp.rv) inp.imm4)
        (lanes .byte (dramGetVectorAsZaEndian m s.dram
          (spillBlock m (get64BitGPR s inp.rn true) inp.imm4) .byte false))) := by
  rw [← arrayAddr_eq, ← sliceOf_arrayRow]
  exact tiles_setTypedHorizontalSlice s.za (arrayRow s inp) _ (toNat_eq_za0B m.zaAddrWidth)

theorem rowSaved_ldr : RowSaved inp.rv inp.rn inp.imm4 (ldr s inp) := by
  unfold RowSaved
  rw [tiles_ldr, Function.update_self]
  exact Matrix.updateRow_self.symm

theorem rowSaved_ldr_of_ne {imm : BitVec 4} (hne : imm ≠ inp.imm4)
    (h : RowSaved inp.rv inp.rn imm s) : RowSaved inp.rv inp.rn imm (ldr s inp) := by
  unfold RowSaved at h ⊢
  rw [tiles_ldr, Function.update_self]
  have hrow : spillRow m (get32BitGPR s inp.rv) imm ≠
      spillRow m (get32BitGPR s inp.rv) inp.imm4 := fun heq => hne (spillRow_injective _ heq)
  exact h.trans (Matrix.updateRow_ne hrow).symm

/-- `LDR` changes its row only. -/
theorem ldr_za_outside {addr : BitVec m.zaAddrWidth}
    (hout : zaRow addr ≠ spillRow m (get32BitGPR s inp.rv) inp.imm4) :
    (ldr s inp).za addr = s.za addr := by
  refine updateSingleTypedSlice_outside (t := za0B) (toNat_eq_za0B m.zaAddrWidth) s.za false
    (arrayRow s inp) _ ?_
  rw [sliceOf_arrayRow]
  intro hin
  apply hout
  rw [InSlice, if_neg Bool.false_ne_true] at hin
  rw [zaRow, hin]
  simp [za0B, ElementSize.bytes, ElementSize.bits]

end Transfer

/-! ## Runs of transfers -/

/-- A list of `STR`s, or of `LDR`s, with one vector select register and one
base, in which each of the 16 immediates occurs, in any order. -/
structure Transfers (i : Instr) (rv rn : BitVec 5) (ls : List (Label m)) : Prop where
  same : ∀ l ∈ ls, l.1 = i ∧ l.2.cmd = tempOpcode ∧ l.2.rv = rv ∧ l.2.rn = rn
  all : ∀ imm : BitVec 4, ∃ l ∈ ls, l.2.imm4 = imm

/-- A step that keeps DRAM, the two registers and an enabled ZA. -/
structure Spares (rv rn : BitVec 5) (a b : State m) : Prop where
  dram : b.dram = a.dram
  select : get32BitGPR b rv = get32BitGPR a rv
  base : get64BitGPR b rn true = get64BitGPR a rn true
  enabled : a.pstateZa = true → b.pstateZa = true

/-- Most instructions qualify by what they write. -/
theorem spares_exec {i : Instr} (inp : Inputs m) (s : State m) (hdram : i.writes .dram = false)
    (hgprs : i.writes .gprs = false) (hstop : i ≠ .smstop) (rv rn : BitVec 5) :
    Spares rv rn s (exec fp i inp s) := by
  rcases gpr_congr (exec_frame fp i inp s hgprs) with ⟨h32, h64⟩
  refine ⟨(exec_dram fp inp s hdram).1, h32 rv, h64 rn true, ?_⟩
  intro hza
  by_cases hmodes : i.writes .modes = false
  · rw [(exec_modes fp inp s hmodes).2, hza]
  · have hstart : i = .smstart := by
      cases i <;> simp_all [Instr.writes]
    subst hstart
    rfl

theorem Spares.refl (rv rn : BitVec 5) (s : State m) : Spares rv rn s s :=
  ⟨rfl, rfl, rfl, id⟩

theorem Spares.trans {rv rn : BitVec 5} {a b c : State m} (hab : Spares rv rn a b)
    (hbc : Spares rv rn b c) : Spares rv rn a c where
  dram := hbc.dram.trans hab.dram
  select := hbc.select.trans hab.select
  base := hbc.base.trans hab.base
  enabled := hbc.enabled ∘ hab.enabled

section Runs

variable {rv rn : BitVec 5} {s t : State m} {ls : List (Label m)}

/-- Transfers keep the registers that select rows and blocks. -/
theorem transfers_registers (rv rn : BitVec 5) {i : Instr} (hgprs : i.writes .gprs = false)
    (run : Path fp s ls t) (all : ∀ l ∈ ls, l.1 = i) :
    get32BitGPR t rv = get32BitGPR s rv ∧ get64BitGPR t rn true = get64BitGPR s rn true := by
  have hkept := run.unchanged (Part.read .gprs) (P := fun l => l.1 = i)
    (by
      rintro a ⟨_, inp⟩ b ⟨_, rfl⟩ rfl
      exact exec_frame fp _ inp a hgprs) all
  rcases gpr_congr hkept with ⟨h32, h64⟩
  exact ⟨h32 rv, h64 rn true⟩

theorem spill_enabled (hls : Transfers .str rv rn ls) (run : Path fp s ls t) :
    t.pstateZa = true := by
  obtain ⟨l, hl, _⟩ := hls.all 0
  refine run.established (I := fun a => a.pstateZa = true) (P := fun _ => True)
    (Q := fun l => l.1 = .str) ?_ (fun _ _ h => absurd trivial h)
    (fun l hl => (hls.same l hl).1) (Or.inl ⟨l, hl, trivial⟩)
  rintro a ⟨_, inp⟩ b ⟨hdecode, rfl⟩ rfl _
  exact (Bool.and_eq_true_iff.mp hdecode).1

/-- When each transfer saves its own row and keeps the others saved, all are
saved in the end. -/
theorem rowSaved_run {i : Instr} (hls : Transfers i rv rn ls) (run : Path fp s ls t)
    (own : ∀ (a : State m) inp, RowSaved inp.rv inp.rn inp.imm4 (exec fp i inp a))
    (others : ∀ (a : State m) inp imm, imm ≠ inp.imm4 → RowSaved inp.rv inp.rn imm a →
      RowSaved inp.rv inp.rn imm (exec fp i inp a)) (imm : BitVec 4) :
    RowSaved rv rn imm t := by
  refine run.established (P := fun l => l.2.imm4 = imm)
    (Q := fun l => l.1 = i ∧ l.2.cmd = tempOpcode ∧ l.2.rv = rv ∧ l.2.rn = rn) ?_ ?_
    hls.same (Or.inl (hls.all imm))
  · rintro a ⟨_, inp⟩ b ⟨_, rfl⟩ ⟨rfl, _, rfl, rfl⟩ rfl
    exact own a inp
  · rintro a ⟨_, inp⟩ b ⟨_, rfl⟩ ⟨rfl, _, rfl, rfl⟩ hne hsaved
    exact others a inp imm (Ne.symm hne) hsaved

/-- After the spills every row is saved, and ZA is as before. -/
theorem spill_run (hls : Transfers .str rv rn ls) (run : Path fp s ls t) :
    t.za = s.za ∧ ∀ imm, RowSaved rv rn imm t := by
  constructor
  · refine run.unchanged State.za (P := fun l => l.1 = .str) ?_ fun l hl => (hls.same l hl).1
    rintro a ⟨_, inp⟩ b ⟨_, rfl⟩ rfl
    rfl
  · exact rowSaved_run hls run rowSaved_str fun a inp _ => rowSaved_str_of_ne a inp

/-- After the fills every row is the saved one, and the other rows are as before. -/
theorem fill_run (hls : Transfers .ldr rv rn ls) (run : Path fp s ls t) :
    t.dram = s.dram ∧ (∀ imm, RowSaved rv rn imm t) ∧
      ∀ addr, (∀ imm, zaRow addr ≠ spillRow m (get32BitGPR s rv) imm) → t.za addr = s.za addr := by
  refine ⟨?_, ?_, ?_⟩
  · refine run.unchanged State.dram (P := fun l => l.1 = .ldr) ?_ fun l hl => (hls.same l hl).1
    rintro a ⟨_, inp⟩ b ⟨_, rfl⟩ rfl
    rfl
  · exact rowSaved_run hls run rowSaved_ldr fun a inp _ => rowSaved_ldr_of_ne a inp
  · intro addr hout
    refine (run.invariant (I := fun a => get32BitGPR a rv = get32BitGPR s rv ∧
      a.za addr = s.za addr) ?_ hls.same ⟨rfl, rfl⟩).2
    rintro a ⟨_, inp⟩ b ⟨_, rfl⟩ ⟨rfl, _, rfl, rfl⟩ ⟨hw, hza⟩
    refine ⟨hw, Eq.trans ?_ hza⟩
    apply ldr_za_outside
    rw [hw]
    exact hout _

/-- Two states with one block in DRAM and both rows saved have one row in ZA. -/
theorem row_eq_of_rowSaved {imm : BitVec 4} (hdram : t.dram = s.dram)
    (hw : get32BitGPR t rv = get32BitGPR s rv)
    (hbase : get64BitGPR t rn true = get64BitGPR s rn true)
    (hs : RowSaved rv rn imm s) (ht : RowSaved rv rn imm t) :
    (tiles .byte t.za za0B).row (spillRow m (get32BitGPR s rv) imm) =
      (tiles .byte s.za za0B).row (spillRow m (get32BitGPR s rv) imm) := by
  unfold RowSaved at hs ht
  rw [hdram, hbase, hw] at ht
  exact ht.symm.trans hs

end Runs

/-- The bytes of a row of ZA are the entries of a row of `ZA0.B`. -/
theorem za_eq_of_row_eq {za za' : ZaMem m} {r : SliceIdx m .byte}
    (h : (tiles .byte za za0B).row r = (tiles .byte za' za0B).row r)
    {addr : BitVec m.zaAddrWidth} (haddr : zaRow addr = r) : za addr = za' addr := by
  obtain ⟨t, r', c, i, rfl⟩ := exists_byteOf .byte addr
  obtain rfl : t = za0B := Subsingleton.elim (α := Fin 1) t za0B
  have hr : r' = r := by
    rw [zaRow, byteOf_row] at haddr
    apply Fin.ext
    simpa [za0B, ElementSize.bytes, ElementSize.bits] using haddr
  subst hr
  rw [← elem_tiles za, ← elem_tiles za']
  exact congrArg (elem · i 8) (congrFun h c)

/-- With `SVL = 128` the 16 rows are all of ZA. -/
theorem exists_spillRow (h : m.svl = 128) (w : BitVec 32) (addr : BitVec m.zaAddrWidth) :
    ∃ imm, zaRow addr = spillRow m w imm := by
  have hsvlB : m.svlB = 16 := by
    have := m.svl_eq
    omega
  have hrow : zaRow addr < 16 := by
    rw [zaRow, ← hsvlB]
    exact Nat.div_lt_of_lt_mul (zaAddr_toNat_lt addr)
  have hlt : (spillRow m w (BitVec.ofNat 4 (zaRow addr + (16 - w.toNat % 16))) : ℕ) < 16 :=
    Nat.lt_of_lt_of_eq (Fin.isLt _) hsvlB
  have hmod := spillRow_mod (m := m) w (BitVec.ofNat 4 (zaRow addr + (16 - w.toNat % 16)))
  refine ⟨BitVec.ofNat 4 (zaRow addr + (16 - w.toNat % 16)), ?_⟩
  rw [BitVec.toNat_ofNat] at hmod
  omega

/-- Spilling 16 rows of ZA and filling them again, with anything in between
that spares DRAM and the two registers, restores the rows; each `STR` stays in
its own block. -/
theorem spill_fill {rv rn : BitVec 5} {s u v : State m} {strs mid ldrs : List (Label m)}
    (hstrs : Transfers .str rv rn strs) (hldrs : Transfers .ldr rv rn ldrs)
    (spill : Path fp s strs u) (between : Path fp u mid v)
    (spares : ∀ {a l b}, Runs.StepOf (Step fp) u mid v a l b → Spares rv rn a b) :
    (∃ t, Path fp v ldrs t) ∧
    (∀ t, Path fp v ldrs t →
      (∀ (imm : BitVec 4) (addr : BitVec m.zaAddrWidth),
        zaRow addr = (get32BitGPR s rv + imm.setWidth 32).toNat % m.svlB →
          t.za addr = s.za addr) ∧
      (∀ addr : BitVec m.zaAddrWidth,
        (∀ imm : BitVec 4, zaRow addr ≠ (get32BitGPR s rv + imm.setWidth 32).toNat % m.svlB) →
          t.za addr = v.za addr) ∧
      (m.svl = 128 → t.za = s.za)) ∧
    ∀ {a l b}, Runs.StepOf (Step fp) s strs u a l b → ∀ addr : BitVec 128,
      ¬ ((get64BitGPR s rn true).toNat + l.2.imm4.toNat * m.svlB ≤ addr.toNat ∧
        addr.toNat < (get64BitGPR s rn true).toNat + l.2.imm4.toNat * m.svlB + m.svlB) →
          b.dram addr = a.dram addr := by
  have hkept : Spares rv rn u v := between.related (Spares.refl rv rn) Spares.trans spares
  obtain ⟨hza, hsaved⟩ := spill_run hstrs spill
  obtain ⟨hw, hbase⟩ := transfers_registers rv rn rfl spill fun l hl =>
    (hstrs.same l hl).1
  refine ⟨?_, ?_, ?_⟩
  · refine ⟨_, path_execAll fp fun l hl => ?_⟩
    obtain ⟨hi, hcmd, _⟩ := hldrs.same l hl
    rw [hi]
    refine ⟨?_, rfl⟩
    simp only [decode, modeEnabled, hkept.enabled (spill_enabled hstrs spill), hcmd,
      beq_self_eq_true, Bool.and_self]
  · intro t fill
    obtain ⟨hdram, hfilled, hothers⟩ := fill_run hldrs fill
    obtain ⟨hw', hbase'⟩ := transfers_registers rv rn rfl fill fun l hl =>
      (hldrs.same l hl).1
    have hselect : get32BitGPR v rv = get32BitGPR s rv := hkept.select.trans hw
    have hrows : ∀ (imm : BitVec 4) (addr : BitVec m.zaAddrWidth),
        zaRow addr = spillRow m (get32BitGPR s rv) imm → t.za addr = s.za addr := by
      intro imm addr haddr
      have hrow := row_eq_of_rowSaved (hdram.trans hkept.dram) (hw'.trans hkept.select)
        (hbase'.trans hkept.base) (hsaved imm) (hfilled imm)
      rw [hza, hw] at hrow
      exact za_eq_of_row_eq hrow haddr
    refine ⟨hrows, ?_, ?_⟩
    · rw [hselect] at hothers
      exact hothers
    · intro hsvl
      funext addr
      obtain ⟨imm, haddr⟩ := exists_spillRow hsvl (get32BitGPR s rv) addr
      exact hrows imm addr haddr
  · rintro a ⟨i, inp⟩ b ⟨pre, post, rfl, before, ⟨_, rfl⟩, _⟩ addr hout
    have hpre : ∀ l ∈ pre, l.1 = .str := fun l hl =>
      (hstrs.same l (List.mem_append_left _ hl)).1
    obtain ⟨rfl, _, rfl, rfl⟩ := hstrs.same (i, inp) (by simp)
    have hregs := transfers_registers inp.rv inp.rn rfl before hpre
    apply str_dram_outside a inp
    rw [hregs.2, inBlock_spillBlock]
    exact hout

/-- Spilling, `ZERO` and filling in the opposite order, on the smallest model. -/
theorem spill_fill_zero :
    let s : State smeDramLE := { (default : State smeDramLE) with
      pstateZa := true, za := fun addr => addr.setWidth 8 }
    let transfer (i : Instr) (k : ℕ) : Label smeDramLE :=
      (i, { (default : Inputs smeDramLE) with
        cmd := tempOpcode, rv := 31, imm := BitVec.ofNat 8 k })
    let clear : Label smeDramLE :=
      (.zero, { (default : Inputs smeDramLE) with cmd := tempOpcode, imm := 0xFF })
    (execAll default ((List.range 16).reverse.map (transfer .ldr)) (execAll default [clear]
      (execAll default ((List.range 16).map (transfer .str)) s))).za = s.za := by
  intro s transfer clear
  have himm : ∀ imm : BitVec 4, (BitVec.ofNat 8 imm.toNat).extractLsb' 0 4 = imm := by decide
  have htransfers : ∀ i, ∀ ks : List ℕ, (∀ k < 16, k ∈ ks) →
      Transfers i 31 0 (ks.map (transfer i)) := by
    intro i ks hks
    constructor
    · intro l hl
      obtain ⟨k, _, rfl⟩ := List.mem_map.mp hl
      exact ⟨rfl, rfl, rfl, rfl⟩
    · intro imm
      exact ⟨_, List.mem_map.mpr ⟨imm.toNat, hks _ imm.isLt, rfl⟩, himm imm⟩
  have hstrs := htransfers .str (List.range 16) (by simp)
  have spill : Path default s ((List.range 16).map (transfer .str))
      (execAll default ((List.range 16).map (transfer .str)) s) := by
    refine path_execAll default fun l hl => ?_
    obtain ⟨k, _, rfl⟩ := List.mem_map.mp hl
    exact ⟨rfl, rfl⟩
  have between : Path default (execAll default ((List.range 16).map (transfer .str)) s) [clear]
      (execAll default [clear] (execAll default ((List.range 16).map (transfer .str)) s)) :=
    .cons ⟨by rw [decode, modeEnabled, spill_enabled hstrs spill]; rfl, rfl⟩ (.nil _)
  obtain ⟨⟨t, fill⟩, restored, _⟩ := spill_fill hstrs
    (htransfers .ldr (List.range 16).reverse (by simp)) spill between fun hstep => by
      obtain ⟨_, rfl⟩ := hstep.is_step
      obtain rfl := List.mem_singleton.mp hstep.mem
      exact spares_exec _ _ rfl rfl (by decide) 31 0
  rw [← eq_execAll_of_path fill]
  exact (restored t fill).2.2 rfl

end ArmSmeIla
