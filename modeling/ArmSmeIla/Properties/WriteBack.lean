import ArmSmeIla.Views.DramBlock
import ArmSmeIla.Views.Footprints

/-!
# The captured write

The README describes `WB_base_addr` and `WB_svl_vector` as the last write to
DRAM. That they still describe DRAM later is an invariant of runs: stores
establish it and no other instruction touches DRAM or the capture.
-/

namespace ArmSmeIla

open Packing

variable {m : ArmSme} {fp : FpFunctions}

/-- DRAM holds the captured vector at the captured address, its most
significant byte first. -/
def Captured (s : State m) : Prop :=
  ∀ k < m.svlB, s.dram (s.wbBaseAddr + BitVec.ofNat 128 k) =
    getElementInVectorFromMSB s.wbSvlVector k 8 m.svl

/-- The bytes of the vector, counted from its least significant one. -/
theorem Captured.elem_eq {s : State m} (h : Captured s) {j : ℕ} (hj : j < m.svlB) :
    elem s.wbSvlVector j 8 = s.dram (s.wbBaseAddr + BitVec.ofNat 128 (m.svlB - 1 - j)) := by
  have hbyte := h (m.svlB - 1 - j) (by omega)
  have hmirror : m.svl / 8 - 1 - (m.svlB - 1 - j) = j := by
    show m.svlB - 1 - (m.svlB - 1 - j) = j
    omega
  unfold getElementInVectorFromMSB at hbyte
  rw [hbyte, hmirror]
  rfl

/-- A store is one vector write, whatever else it updates. -/
theorem exec_store (fp : FpFunctions) {i : Instr} (h : i.writes .dram = true) (inp : Inputs m)
    (s : State m) :
    ∃ (base : BitVec 128) (vector : BitVec m.svl) (esize : ElementSize) (convert : Bool),
      let s' := dramSetVectorAsDramEndian s base vector esize convert
      (exec fp i inp s).dram = s'.dram ∧ (exec fp i inp s).wbSvlVector = s'.wbSvlVector ∧
        (exec fp i inp s).wbBaseAddr = base := by
  rcases (writes_dram_iff i).mp h with ⟨esize, rfl⟩ | rfl
  · exact ⟨typedBaseAddr s inp esize, _, esize, true, rfl, rfl, rfl⟩
  · exact ⟨arrayAddr s inp, _, .byte, false, rfl, rfl, rfl⟩

theorem captured_exec_store {i : Instr} (h : i.writes .dram = true) (inp : Inputs m)
    (s : State m) : Captured (exec fp i inp s) := by
  obtain ⟨base, vector, esize, convert, hdram, hvector, hbase⟩ := exec_store fp h inp s
  intro k hk
  rw [hdram, hvector, hbase]
  exact dramSetVector_captured s base vector esize convert hk

theorem captured_exec_frame {i : Instr} (h : i.writes .dram = false) (inp : Inputs m)
    {s : State m} (hs : Captured s) : Captured (exec fp i inp s) := by
  obtain ⟨hdram, hvector, hbase⟩ := exec_dram fp inp s h
  unfold Captured
  rwa [hdram, hvector, hbase]

/-- In every state after the first store the capture describes DRAM, and no
store changes DRAM outside the block it captures. -/
theorem run_captured {s t : State m} {ls : List (Label m)} (run : Path fp s ls t) :
    ((∃ l ∈ ls, (∃ esize, l.1 = .st1 esize) ∨ l.1 = .str) →
      ∀ k < m.svlB, t.dram (t.wbBaseAddr + BitVec.ofNat 128 k) =
        getElementInVectorFromMSB t.wbSvlVector k 8 m.svl) ∧
    ∀ {a b : State m} {l : Label m}, Runs.StepOf (Step fp) s ls t a l b →
      (∃ esize, l.1 = .st1 esize) ∨ l.1 = .str →
        ∀ addr, ¬ InBlock m b.wbBaseAddr addr → b.dram addr = a.dram addr := by
  constructor
  · intro hstore
    simp only [← writes_dram_iff] at hstore
    refine Runs.established (I := Captured) (P := fun l => l.1.writes .dram = true)
      (Q := fun _ => True) ?_ ?_ run (fun _ _ => trivial) (Or.inl hstore)
    · rintro s l t ⟨_, rfl⟩ _ hl
      exact captured_exec_store hl l.2 s
    · rintro s l t ⟨_, rfl⟩ _ hl hs
      exact captured_exec_frame (Bool.eq_false_iff.mpr hl) l.2 hs
  · intro a b l hstep hstore addr hout
    obtain ⟨_, rfl⟩ := hstep.is_step
    obtain ⟨base, vector, esize, convert, hdram, _, hbase⟩ :=
      exec_store fp ((writes_dram_iff l.1).mpr hstore) l.2 a
    rw [hbase] at hout
    rw [hdram]
    exact dramSetVector_outside a base vector esize convert hout

/-- Row 5 is stored at address 80, and `SMSTART` clears the array afterwards. -/
theorem run_captured_str :
    let s : State smeDramBE :=
      { (default : State smeDramBE) with pstateZa := true, za := fun addr => addr.setWidth 8 }
    let inp : Inputs smeDramBE := { (default : Inputs smeDramBE) with cmd := tempOpcode, imm := 5 }
    let t := execAll default [(.str, inp), (.smstart, inp)] s
    t.dram (t.wbBaseAddr + 3#128) = getElementInVectorFromMSB t.wbSvlVector 3 8 128 ∧
      t.dram 83 = 0x5C := by
  intro s inp t
  have run : Path default s [(.str, inp), (.smstart, inp)] t :=
    .cons ⟨rfl, rfl⟩ (.cons ⟨rfl, rfl⟩ (.nil _))
  constructor
  · exact (run_captured run).1 ⟨_, List.mem_cons_self, Or.inr rfl⟩ 3 (by decide)
  · decide

end ArmSmeIla
