import ArmSmeIla.Architecture.Endianness
import ArmSmeIla.Properties.WriteBack

/-!
# The two DRAM endiannesses

`DRAM_is_LE` is a constant of a model. The little-endian and the big-endian model
are one machine with two pictures of DRAM, for programs that access it in aligned
elements of one size; and what a store captures is mirrored like DRAM.
-/

namespace ArmSmeIla

open Arch Packing

variable {m : ArmSme}

variable (esize : ElementSize)

/-- DRAM is accessed in aligned elements of one size. `LDR` and `STR` access it
byte by byte. -/
def Accesses (s : State m) (l : Label m) : Prop :=
  match l.1 with
  | .ld1 size | .st1 size => size = esize ∧ esize.bytes ∣ (typedBaseAddr s l.2 esize).toNat
  | .ldr | .str => esize = .byte
  | _ => True

/-- Steps with such accesses. -/
def AccessStep (fp : FpFunctions) (s : State m) (l : Label m) (t : State m) : Prop :=
  Step fp s l t ∧ Accesses esize s l

/-- The bytes of each element in the opposite order. -/
def mirrorVector (v : BitVec m.svl) : BitVec m.svl :=
  vectorOf .byte fun j => elem v (offsetOf esize false j) 8

/-- The same state for the other endianness. -/
def State.mirrored (s : State m) : State m.otherOrder :=
  { s with
    dram := fun addr => s.dram (mirror esize addr)
    wbSvlVector := mirrorVector esize s.wbSvlVector }

/-! ## Captured vectors -/

section Vectors

theorem bytes_dvd_svlB (m : ArmSme) : esize.bytes ∣ m.svlB :=
  ⟨_, (m.dim_mul_bytes esize).symm.trans (Nat.mul_comm _ _)⟩

theorem elem_mirrorVector (v : BitVec m.svl) {j : ℕ} (hj : j < m.svlB) :
    elem (mirrorVector esize v) j 8 = elem v (offsetOf esize false j) 8 :=
  congrFun (lanes_vectorOf (m := m) fun j : SliceIdx m .byte =>
    elem v (offsetOf esize false j) 8) ⟨j, hj⟩

theorem ext_bytes {v w : BitVec m.svl} (h : ∀ j < m.svlB, elem v j 8 = elem w j 8) : v = w := by
  apply lanes_injective .byte
  funext j
  exact h j j.isLt

theorem mirrorVector_mirrorVector (v : BitVec m.svl) :
    mirrorVector esize (mirrorVector esize v) = v := by
  apply ext_bytes
  intro j hj
  have hmirror := (offsetOf_lt_iff esize false (bytes_dvd_svlB esize m) j).mpr hj
  rw [elem_mirrorVector esize _ hj, elem_mirrorVector esize _ hmirror, offsetOf_offsetOf]
  rfl

/-- Counted from the other end, the mirror image is in the mirrored place. -/
theorem offsetOf_from_end {j : ℕ} (hj : j < m.svlB) :
    m.svlB - 1 - offsetOf esize false j = offsetOf esize false (m.svlB - 1 - j) := by
  obtain ⟨i, b, hi, hb, rfl⟩ : ∃ i b, i < m.dim esize ∧ b < esize.bytes ∧
      i * esize.bytes + b = j := by
    refine ⟨j / esize.bytes, j % esize.bytes, ?_, Nat.mod_lt j esize.bytes_pos,
      Nat.div_add_mod' j esize.bytes⟩
    rwa [Nat.div_lt_iff_lt_mul esize.bytes_pos, m.dim_mul_bytes]
  have hmirror : esize.bytes - 1 - b < esize.bytes := by omega
  rw [offsetOf_eq esize false i hb, ← m.dim_mul_bytes esize, offset_mirror hi hb,
    offset_mirror hi (memByte_lt false hb), offsetOf_eq esize false _ hmirror]
  rfl

end Vectors

/-! ## States -/

/-- The states of the two models correspond. -/
theorem mirrored_bijective : Function.Bijective (State.mirrored (m := m) esize) := by
  apply Function.bijective_iff_has_inverse.mpr
  let back (s : State m.otherOrder) : State m :=
    { s with
      dram := fun addr => s.dram (mirror esize addr)
      wbSvlVector := mirrorVector (m := m) esize s.wbSvlVector }
  refine ⟨back, fun s => ?_, fun s => ?_⟩
  · ext1
    case dram =>
      funext addr
      exact congrArg s.dram (mirror_mirror addr)
    case wbSvlVector => exact mirrorVector_mirrorVector esize s.wbSvlVector
    all_goals rfl
  · ext1
    case dram =>
      funext addr
      exact congrArg s.dram (mirror_mirror addr)
    case wbSvlVector => exact mirrorVector_mirrorVector (m := m) esize s.wbSvlVector
    all_goals rfl

/-- Programs correspond as well: the inputs do not depend on the endianness. -/
theorem otherOrder_bijective : Function.Bijective (Label.otherOrder (m := m)) := by
  apply Function.bijective_iff_has_inverse.mpr
  exact ⟨fun l => (l.1, { l.2 with }), fun _ => rfl, fun _ => rfl⟩

/-! ## Steps and runs -/

section Steps

variable {esize} {fp : FpFunctions} {s : State m} {l : Label m}

theorem accesses_view (h : Accesses esize s l) (n : ℕ) :
    Arch.Accesses esize (view s n) l.2 l.1 := by
  obtain ⟨i, inp⟩ := l
  unfold Accesses at h
  unfold Arch.Accesses
  cases i with
  | ld1 size | st1 size =>
      dsimp only at h ⊢
      rwa [view_typedBase]
  | _ => exact h

theorem accesses_mirrored_iff :
    Accesses esize (s.mirrored esize) l.otherOrder ↔ Accesses esize s l := by
  obtain ⟨i, inp⟩ := l
  cases i <;> exact Iff.rfl

theorem decode_mirrored (i : Instr) (inp : Inputs m) :
    decode i inp.otherOrder (s.mirrored esize) = decode i inp s := by
  cases i <;> rfl

/-- The address of a store does not depend on the endianness. -/
theorem wbBaseAddr_mirrored (hi : l.1.writes .dram = true) :
    (exec fp l.1 l.2.otherOrder (s.mirrored esize)).wbBaseAddr =
      (exec fp l.1 l.2 s).wbBaseAddr := by
  obtain ⟨i, inp⟩ := l
  obtain ⟨size, rfl⟩ | rfl := (writes_dram_iff i).mp hi
  · show typedBaseAddr (s.mirrored esize) inp.otherOrder size = typedBaseAddr s inp size
    rfl
  · show arrayAddr (s.mirrored esize) inp.otherOrder = arrayAddr s inp
    rfl

theorem wbBaseAddr_aligned (h : Accesses esize s l) (hi : l.1.writes .dram = true) :
    esize.bytes ∣ (exec fp l.1 l.2 s).wbBaseAddr.toNat := by
  obtain ⟨i, inp⟩ := l
  obtain ⟨size, rfl⟩ | rfl := (writes_dram_iff i).mp hi
  · obtain ⟨rfl, haligned⟩ := h
    exact haligned
  · obtain rfl : esize = .byte := h
    exact Nat.one_dvd _

/-- A store captures the mirrored vector at the same address. -/
theorem captured_mirrored (h : Accesses esize s l)
    (hdram : ∀ addr, (exec fp l.1 l.2.otherOrder (s.mirrored esize)).dram addr =
      (exec fp l.1 l.2 s).dram (mirror esize addr)) :
    (exec fp l.1 l.2.otherOrder (s.mirrored esize)).wbSvlVector =
        mirrorVector esize (exec fp l.1 l.2 s).wbSvlVector ∧
      (exec fp l.1 l.2.otherOrder (s.mirrored esize)).wbBaseAddr =
        (exec fp l.1 l.2 s).wbBaseAddr := by
  cases hi : l.1.writes .dram with
  | false =>
      obtain ⟨-, hvector, hbase⟩ := exec_dram fp l.2 s hi
      obtain ⟨-, hvector', hbase'⟩ := exec_dram fp l.2.otherOrder (s.mirrored esize) hi
      exact ⟨hvector'.trans (congrArg (mirrorVector esize) hvector).symm, hbase'.trans hbase.symm⟩
  | true =>
      have hbase : (exec fp l.1 l.2.otherOrder (s.mirrored esize)).wbBaseAddr =
          (exec fp l.1 l.2 s).wbBaseAddr := wbBaseAddr_mirrored hi
      have haligned : esize.bytes ∣ (exec fp l.1 l.2 s).wbBaseAddr.toNat := wbBaseAddr_aligned h hi
      have hcaptured : Captured (exec fp l.1 l.2 s) := captured_exec_store hi l.2 s
      have hmirrored : Captured (exec fp l.1 l.2.otherOrder (s.mirrored esize)) :=
        captured_exec_store hi l.2.otherOrder (s.mirrored esize)
      refine ⟨?_, hbase⟩
      apply ext_bytes (m := m)
      intro j hj
      have hmirror := (offsetOf_lt_iff esize false (bytes_dvd_svlB esize m) j).mpr hj
      calc elem (exec fp l.1 l.2.otherOrder (s.mirrored esize)).wbSvlVector j 8
          = (exec fp l.1 l.2 s).dram (mirror esize
              ((exec fp l.1 l.2 s).wbBaseAddr + BitVec.ofNat 128 (m.svlB - 1 - j))) := by
            rw [hmirrored.elem_eq hj, hdram, hbase]
            rfl
        _ = elem (exec fp l.1 l.2 s).wbSvlVector (offsetOf esize false j) 8 := by
            rw [mirror_add haligned, hcaptured.elem_eq hmirror, offsetOf_from_end esize hj]
        _ = elem (mirrorVector esize (exec fp l.1 l.2 s).wbSvlVector) j 8 :=
            (elem_mirrorVector esize _ hj).symm

theorem exec_mirrored (h : Accesses esize s l) :
    exec fp l.1 l.2.otherOrder (s.mirrored esize) = (exec fp l.1 l.2 s).mirrored esize := by
  have hs := (refines_view s).exec fp l.2 l.1
  have hs' := (refines_view (s.mirrored esize)).exec fp l.2.otherOrder l.1
  have hstep := Arch.exec_mirrored fp (view s s.faults.toNat) l.2 (accesses_view h _)
  have hview : view (exec fp l.1 l.2.otherOrder (s.mirrored esize))
        (Arch.exec fp l.1 l.2.otherOrder (view (s.mirrored esize) s.faults.toNat)).faults =
      (view (exec fp l.1 l.2 s) (Arch.exec fp l.1 l.2 (view s s.faults.toNat)).faults).mirrored
        esize := by
    rw [← hs.shown]
    exact hs'.shown.symm.trans hstep
  have hdram := congrArg Arch.State.mem hview
  obtain ⟨hvector, hbase⟩ := captured_mirrored h (congrFun hdram)
  ext1
  case za => exact rows_injective (congrArg Arch.State.za hview)
  case faults =>
    rw [hs'.counted]
    exact (congrArg (fun a => BitVec.ofNat 8 a.faults) hstep).trans hs.counted.symm
  case pstateSm => exact congrArg Arch.State.sm hview
  case pstateZa => exact congrArg Arch.State.zaOn hview
  case sp => exact congrArg Arch.State.sp hview
  case zRegs => exact congrArg Arch.State.z hview
  case pRegs => exact congrArg Arch.State.p hview
  case gprs => exact congrArg Arch.State.x hview
  case dram => exact hdram
  case wbSvlVector => exact hvector
  case wbBaseAddr => exact hbase

theorem accessStep_mirrored_iff {t' : State m.otherOrder} :
    AccessStep esize fp (s.mirrored esize) l.otherOrder t' ↔
      ∃ t, AccessStep esize fp s l t ∧ t' = t.mirrored esize := by
  unfold AccessStep Step
  rw [accesses_mirrored_iff]
  constructor
  · rintro ⟨⟨hdecode, rfl⟩, h⟩
    exact ⟨_, ⟨⟨(decode_mirrored l.1 l.2).symm.trans hdecode, rfl⟩, h⟩, exec_mirrored h⟩
  · rintro ⟨t, ⟨⟨hdecode, rfl⟩, h⟩, rfl⟩
    exact ⟨⟨(decode_mirrored l.1 l.2).trans hdecode, (exec_mirrored h).symm⟩, h⟩

end Steps

/-- The little-endian and the big-endian model are isomorphic, on programs that
access DRAM in aligned elements of one size: mirroring these elements carries the
states, the programs and the executions of one over to those of the other. -/
theorem path_mirrored (m : ArmSme) (esize : ElementSize) (fp : FpFunctions) :
    Function.Bijective (State.mirrored (m := m) esize) ∧
      Function.Bijective (Label.otherOrder (m := m)) ∧
      ∀ (s : State m) (ls : List (Label m)) (t' : State m.otherOrder),
        Runs (AccessStep esize fp) (s.mirrored esize) (ls.map Label.otherOrder) t' ↔
          ∃ t, Runs (AccessStep esize fp) s ls t ∧ t' = t.mirrored esize := by
  refine ⟨mirrored_bijective esize, otherOrder_bijective, fun s ls t' => ?_⟩
  exact Runs.map_iff (State.mirrored esize) Label.otherOrder accessStep_mirrored_iff

end ArmSmeIla
