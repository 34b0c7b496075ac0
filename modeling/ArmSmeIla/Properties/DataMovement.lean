import ArmSmeIla.Architecture.Bytewise
import ArmSmeIla.Architecture.Refinement
import ArmSmeIla.Properties.WriteBack

/-!
# Executions that differ in their data only

Two executions of one program, on data that is related byte by byte. Programs
that move data keep the relation, whatever it is; and no program lets data reach
a mode, a predicate, an address or the count of faults.
-/

namespace ArmSmeIla

open Arch Packing

variable {m : ArmSme} {R : BitVec 8 → BitVec 8 → Prop}

variable (R) in
/-- The bytes of ZA, of the vectors, of DRAM and of the captured write are
related, all else is the same. -/
structure RelatedData (s s' : State m) : Prop where
  za : ∀ addr, R (s.za addr) (s'.za addr)
  zRegs : ∀ n, ∀ j < m.svlB, R (elem (s.zRegs n) j 8) (elem (s'.zRegs n) j 8)
  dram : ∀ addr, R (s.dram addr) (s'.dram addr)
  wbSvlVector : ∀ j < m.svlB, R (elem s.wbSvlVector j 8) (elem s'.wbSvlVector j 8)
  wbBaseAddr : s.wbBaseAddr = s'.wbBaseAddr
  faults : s.faults = s'.faults
  pstateSm : s.pstateSm = s'.pstateSm
  pstateZa : s.pstateZa = s'.pstateZa
  pRegs : s.pRegs = s'.pRegs
  gprs : s.gprs = s'.gprs
  sp : s.sp = s'.sp

/-- An element of one byte has one byte. -/
def onlyByte : Fin ElementSize.byte.bytes := ⟨0, ElementSize.byte.bytes_pos⟩

theorem eq_onlyByte (b : Fin ElementSize.byte.bytes) : b = onlyByte :=
  Fin.ext (Nat.lt_one_iff.mp b.isLt)

/-- The bytes of a row are those of ZA. -/
theorem elem_rows (za : ZaMem m) (row : RowIdx m) (j : SliceIdx m .byte) :
    elem (rows za row) j 8 = za (byteOf za0B row j onlyByte) := by
  rw [← elem_tiles za za0B row j onlyByte, ← lanes_rows_byte]
  exact (elem_self _).symm

theorem vectorRel_rows_iff {za za' : ZaMem m} :
    (∀ row, VectorRel R (rows za row) (rows za' row)) ↔ ∀ addr, R (za addr) (za' addr) := by
  constructor
  · intro h addr
    obtain ⟨t, r, c, b, rfl⟩ := exists_byteOf .byte addr
    obtain rfl : t = za0B := Fin.ext (Nat.lt_one_iff.mp t.isLt)
    have hbyte := h r c (m.dim_byte ▸ c.isLt)
    rwa [elem_rows, elem_rows, ← eq_onlyByte b] at hbyte
  · intro h row j hj
    have hrow := fun za : ZaMem m => elem_rows za row ⟨j, m.dim_byte.symm ▸ hj⟩
    rw [hrow, hrow]
    exact h _

section Views

variable {s s' : State m} {a b : Arch.State m}

theorem RelatedData.bytewise (h : RelatedData R s s') :
    Bytewise R (view s s.faults.toNat) (view s' s'.faults.toNat) where
  za := vectorRel_rows_iff.mpr h.za
  z := h.zRegs
  mem := h.dram
  sm := h.pstateSm
  zaOn := h.pstateZa
  p := h.pRegs
  x := h.gprs
  sp := h.sp
  faults := congrArg BitVec.toNat h.faults

theorem relatedData_of_bytewise (hs : Refines s a) (hs' : Refines s' b) (h : Bytewise R a b)
    (hvector : ∀ j < m.svlB, R (elem s.wbSvlVector j 8) (elem s'.wbSvlVector j 8))
    (hbase : s.wbBaseAddr = s'.wbBaseAddr) : RelatedData R s s' := by
  have hfaults : s.faults = s'.faults := by rw [hs.counted, hs'.counted, h.faults]
  rw [hs.shown, hs'.shown] at h
  exact ⟨vectorRel_rows_iff.mp h.za, h.z, h.mem, hvector, hbase, hfaults, h.sm, h.zaOn, h.p, h.x,
    h.sp⟩

end Views

/-- Data does not reach the address of a store. -/
theorem RelatedData.wbBaseAddr_store {s s' : State m} (h : RelatedData R s s') {i : Instr}
    (hi : i.writes .dram = true) (inp : Inputs m) (fp fp' : FpFunctions) :
    (exec fp i inp s).wbBaseAddr = (exec fp' i inp s').wbBaseAddr := by
  obtain ⟨esize, rfl⟩ | rfl := (writes_dram_iff i).mp hi
  · show typedBaseAddr s inp esize = typedBaseAddr s' inp esize
    rw [← view_typedBase s s.faults.toNat, ← view_typedBase s' s'.faults.toNat]
    exact h.bytewise.typedBase inp
  · show arrayAddr s inp = arrayAddr s' inp
    rw [← view_rowBase s s.faults.toNat, ← view_rowBase s' s'.faults.toNat]
    exact h.bytewise.rowBase inp

/-- The captured write is data that went to DRAM. -/
theorem RelatedData.captured_exec {s s' : State m} (h : RelatedData R s s') {i : Instr}
    (inp : Inputs m) (fp fp' : FpFunctions)
    (hdram : ∀ addr, R ((exec fp i inp s).dram addr) ((exec fp' i inp s').dram addr)) :
    (∀ j < m.svlB, R (elem (exec fp i inp s).wbSvlVector j 8)
      (elem (exec fp' i inp s').wbSvlVector j 8)) ∧
    (exec fp i inp s).wbBaseAddr = (exec fp' i inp s').wbBaseAddr := by
  cases hi : i.writes .dram with
  | false =>
      obtain ⟨-, hvector, hbase⟩ := exec_dram fp inp s hi
      obtain ⟨-, hvector', hbase'⟩ := exec_dram fp' inp s' hi
      rw [hvector, hvector', hbase, hbase']
      exact ⟨h.wbSvlVector, h.wbBaseAddr⟩
  | true =>
      have hbase := h.wbBaseAddr_store hi inp fp fp'
      refine ⟨fun j hj => ?_, hbase⟩
      rw [(captured_exec_store hi inp s).elem_eq hj, (captured_exec_store hi inp s').elem_eq hj,
        hbase]
      exact hdram _

theorem RelatedData.exec {s s' : State m} (h : RelatedData R s s') (h0 : R 0 0) (inp : Inputs m)
    {i : Instr} (hi : i.moves = true ∨ ∀ x y, R x y) (fp fp' : FpFunctions) :
    RelatedData R (exec fp i inp s) (exec fp' i inp s') := by
  have hs := (refines_view s).exec fp inp i
  have hs' := (refines_view s').exec fp' inp i
  have hstep := h.bytewise.exec h0 inp hi fp fp'
  have hdram : ∀ addr, R ((ArmSmeIla.exec fp i inp s).dram addr)
      ((ArmSmeIla.exec fp' i inp s').dram addr) := by
    have hmem := hstep.mem
    rw [hs.shown, hs'.shown] at hmem
    exact hmem
  obtain ⟨hvector, hbase⟩ := h.captured_exec inp fp fp' hdram
  exact relatedData_of_bytewise hs hs' hstep hvector hbase

/-- Two executions of one program on data related byte by byte, by any relation
that zero has to itself, go through the same control: each can be followed by the
other, and in the end the data is related again. Of a program that computes with
data, this holds for the relation of all bytes to all bytes. -/
theorem path_relatedData (h0 : R 0 0) (fp fp' : FpFunctions) {s t s' : State m}
    {ls : List (Label m)} (run : Path fp s ls t)
    (hls : (∀ l ∈ ls, l.1.moves = true) ∨ ∀ x y, R x y) (h : RelatedData R s s') :
    ∃ t', Path fp' s' ls t' ∧ RelatedData R t t' := by
  have hls' : ∀ l ∈ ls, l.1.moves = true ∨ ∀ x y, R x y := fun l hl => hls.imp (· l hl) id
  refine Runs.simulated (Q := fun l : Label m => l.1.moves = true ∨ ∀ x y, R x y) ?_ run hls' h
  rintro s s' l t h hl ⟨hdecode, rfl⟩
  refine ⟨_, ⟨?_, rfl⟩, h.exec h0 l.2 hl fp fp'⟩
  rw [← Arch.enabled_eq s' s'.faults.toNat, ← h.bytewise.enabled_eq, Arch.enabled_eq]
  exact hdecode

/-- A program that copies 16 bytes of memory through a row of ZA, on bytes with
and without their low four bits. -/
theorem path_relatedData_copy :
    let inp : Inputs smeDramLE := { (default : Inputs smeDramLE) with cmd := tempOpcode }
    let ls : List (Label smeDramLE) := [(.ldr, inp), (.str, { inp with rn := 1 })]
    let s : State smeDramLE :=
      { (default : State smeDramLE) with
        pstateZa := true, gprs := fun i => BitVec.ofNat 64 (256 * i)
        dram := fun addr => if addr < 16 then 0xa0 ||| addr.setWidth 8 else 0 }
    let s' : State smeDramLE := { s with dram := fun addr => if addr < 16 then 0xa0 else 0 }
    let masked (x y : BitVec 8) : Prop := y = x &&& 0xf0
    (∃ t', Path default s' ls t' ∧ RelatedData masked (execAll default ls s) t') ∧
      (execAll default ls s).dram 0x10b = 0xab ∧ (execAll default ls s').dram 0x10b = 0xa0 := by
  intro inp ls s s' masked
  have run : Path default s ls (execAll default ls s) :=
    .cons ⟨rfl, rfl⟩ (.cons ⟨rfl, rfl⟩ (.nil _))
  have hzero : masked 0 0 := by decide
  have hzeros : ∀ j, masked (elem (0 : BitVec 128) j 8) (elem (0 : BitVec 128) j 8) := by
    intro j
    rw [show (0 : BitVec 128) = 0#128 from rfl, elem_zero_vector]
    exact hzero
  have hbytes : ∀ n < 16, masked (0xa0 ||| (BitVec.ofNat 128 n).setWidth 8) 0xa0 := by decide
  have hdram : ∀ addr, masked (s.dram addr) (s'.dram addr) := by
    intro addr
    by_cases h : addr < 16
    · have hbyte := hbytes addr.toNat h
      rw [BitVec.ofNat_toNat, BitVec.setWidth_eq] at hbyte
      show masked (if _ then _ else _) (if _ then _ else _)
      rwa [if_pos h, if_pos h]
    · show masked (if _ then _ else _) (if _ then _ else _)
      rwa [if_neg h, if_neg h]
  refine ⟨path_relatedData (R := masked) hzero default default run (.inl (by decide)) ?_, ?_⟩
  · exact { za := fun _ => hzero, zRegs := fun _ j _ => hzeros j, dram := hdram
            wbSvlVector := fun j _ => hzeros j, wbBaseAddr := rfl, faults := rfl, pstateSm := rfl
            pstateZa := rfl, pRegs := rfl, gprs := rfl, sp := rfl }
  · decide +kernel

end ArmSmeIla
