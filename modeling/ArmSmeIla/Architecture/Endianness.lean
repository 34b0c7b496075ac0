import ArmSmeIla.Architecture.Refinement

/-!
# The other byte order of memory

A model is built for one byte order of memory. Mirror each aligned element of
one size in its place, and an execution for one order becomes an execution for
the other, as long as all accesses to memory are to aligned elements of that size.
-/

namespace ArmSmeIla

variable {m : ArmSme}

/-- The model built for the other byte order. -/
def ArmSme.otherOrder (m : ArmSme) : ArmSme := { m with dramIsLE := !m.dramIsLE }

/-- Inputs do not depend on it. -/
def Inputs.otherOrder (inp : Inputs m) : Inputs m.otherOrder := { inp with }

def Label.otherOrder (l : Label m) : Label m.otherOrder := (l.1, l.2.otherOrder)

namespace Arch

open Packing

variable (esize : ElementSize)

/-! ## Addresses -/

theorem offsetOf_div (lowestFirst : Bool) (j : ℕ) :
    offsetOf esize lowestFirst j / esize.bytes = j / esize.bytes := by
  have hb := Nat.mod_lt j esize.bytes_pos
  have hoffset := offsetOf_eq esize lowestFirst (j / esize.bytes) hb
  rw [Nat.div_add_mod'] at hoffset
  rw [hoffset, offset_div (memByte_lt lowestFirst hb)]

/-- The two orders are one another's mirror image. -/
theorem offsetOf_offsetOf (first second : Bool) (j : ℕ) :
    offsetOf esize first (offsetOf esize second j) = offsetOf esize (first == second) j := by
  cases first with
  | true => exact congrArg (offsetOf esize · j) (Bool.true_beq second).symm
  | false =>
      cases second with
      | true => rfl
      | false =>
          have hb := Nat.mod_lt j esize.bytes_pos
          have hoffset := offsetOf_eq esize false (j / esize.bytes) hb
          rw [Nat.div_add_mod'] at hoffset
          rw [hoffset, offsetOf_eq esize false _ (memByte_lt false hb), memByte_memByte false hb]
          exact Nat.div_add_mod' j esize.bytes

/-- Blocks of whole elements are mirrored in their place. -/
theorem offsetOf_lt_iff (lowestFirst : Bool) {n : ℕ} (hn : esize.bytes ∣ n) (j : ℕ) :
    offsetOf esize lowestFirst j < n ↔ j < n := by
  obtain ⟨q, rfl⟩ := hn
  rw [Nat.mul_comm]
  rw [← Nat.div_lt_iff_lt_mul esize.bytes_pos, ← Nat.div_lt_iff_lt_mul esize.bytes_pos,
    offsetOf_div]

theorem offsetOf_false_add (j : ℕ) :
    offsetOf esize false j + (2 * (j % esize.bytes) + 1) = j + esize.bytes := by
  have hdiv := Nat.div_add_mod' j esize.bytes
  have hb := Nat.mod_lt j esize.bytes_pos
  show j / esize.bytes * esize.bytes + (esize.bytes - 1 - j % esize.bytes) + _ = _
  omega

/-- The address of the mirror image of a byte in its element. -/
def mirror (addr : BitVec 128) : BitVec 128 := BitVec.ofNat 128 (offsetOf esize false addr.toNat)

theorem bytes_dvd_dram : esize.bytes ∣ 2 ^ 128 := by
  obtain ⟨j, hj, h⟩ := esize.bytes_eq_pow
  rw [h]
  exact Nat.pow_dvd_pow 2 (by omega)

variable {esize}

/-- From an aligned base, the mirror image is where the other order has it. -/
theorem mirror_add {base : BitVec 128} (h : esize.bytes ∣ base.toNat) (j : ℕ) :
    mirror esize (base + BitVec.ofNat 128 j) = base + BitVec.ofNat 128 (offsetOf esize false j) := by
  have hsum : (base + BitVec.ofNat 128 j).toNat ≡ base.toNat + j [MOD 2 ^ 128] := by
    rw [BitVec.toNat_add, BitVec.toNat_ofNat, Nat.add_mod_mod]
    exact Nat.mod_modEq _ _
  have hlow : (base + BitVec.ofNat 128 j).toNat % esize.bytes = j % esize.bytes := by
    obtain ⟨q, hq⟩ := h
    rw [hsum.of_dvd (bytes_dvd_dram esize), hq, Nat.mul_add_mod]
  have hmirror : offsetOf esize false (base + BitVec.ofNat 128 j).toNat ≡
      base.toNat + offsetOf esize false j [MOD 2 ^ 128] := by
    apply Nat.ModEq.add_right_cancel' (2 * (j % esize.bytes) + 1)
    calc offsetOf esize false (base + BitVec.ofNat 128 j).toNat + (2 * (j % esize.bytes) + 1)
        = (base + BitVec.ofNat 128 j).toNat + esize.bytes := by
          rw [← hlow]
          exact offsetOf_false_add esize _
      _ ≡ base.toNat + j + esize.bytes [MOD 2 ^ 128] := hsum.add_right _
      _ = base.toNat + offsetOf esize false j + (2 * (j % esize.bytes) + 1) := by
          rw [Nat.add_assoc, ← offsetOf_false_add esize j, Nat.add_assoc]
  apply BitVec.eq_of_toNat_eq
  rw [mirror, BitVec.toNat_ofNat, hmirror, BitVec.toNat_add, BitVec.toNat_ofNat, Nat.add_mod_mod]

theorem mirror_sub {base : BitVec 128} (h : esize.bytes ∣ base.toNat) (addr : BitVec 128) :
    (mirror esize addr - base).toNat = offsetOf esize false (addr - base).toNat := by
  have haddr : addr = base + BitVec.ofNat 128 (addr - base).toNat := by
    rw [BitVec.ofNat_toNat, BitVec.setWidth_eq, BitVec.add_comm, BitVec.sub_add_cancel]
  have hlt := (offsetOf_lt_iff esize false (bytes_dvd_dram esize) _).mpr (addr - base).isLt
  calc (mirror esize addr - base).toNat
      = (BitVec.ofNat 128 (offsetOf esize false (addr - base).toNat)).toNat := by
        conv_lhs => rw [haddr, mirror_add h, BitVec.add_comm, BitVec.add_sub_cancel]
    _ = offsetOf esize false (addr - base).toNat := Nat.mod_eq_of_lt hlt

theorem mirror_mirror (addr : BitVec 128) : mirror esize (mirror esize addr) = addr := by
  have h : (mirror esize addr).toNat = offsetOf esize false addr.toNat :=
    Nat.mod_eq_of_lt ((offsetOf_lt_iff esize false (bytes_dvd_dram esize) _).mpr addr.isLt)
  rw [mirror, h, offsetOf_offsetOf]
  exact BitVec.eq_of_toNat_eq (Nat.mod_eq_of_lt addr.isLt)

theorem mirror_byte : mirror .byte = id := by
  funext addr
  rw [mirror, offsetOf_byte, id, BitVec.ofNat_toNat, BitVec.setWidth_eq]
  rfl

/-! ## Transfers -/

section Transfers

variable {base : BitVec 128} (h : esize.bytes ∣ base.toNat) (mem : BitVec 128 → BitVec 8)
include h

theorem loadVector_mirror (lowestFirst : Bool) :
    loadVector m (fun addr => mem (mirror esize addr)) base esize (!lowestFirst) =
      loadVector m mem base esize lowestFirst := by
  unfold loadVector
  congr
  funext j
  show mem (mirror esize (base + BitVec.ofNat 128 (offsetOf esize (!lowestFirst) j))) = _
  rw [mirror_add h, offsetOf_offsetOf]
  cases lowestFirst <;> rfl

theorem storeVector_mirror (lowestFirst : Bool) (isActive : ℕ → Bool) (v : BitVec m.svl)
    (addr : BitVec 128) :
    storeVector (fun addr => mem (mirror esize addr)) base esize (!lowestFirst) isActive v addr =
      storeVector mem base esize lowestFirst isActive v (mirror esize addr) := by
  have hblock : esize.bytes ∣ m.svlB := ⟨_, (m.dim_mul_bytes esize).symm.trans (Nat.mul_comm _ _)⟩
  unfold storeVector
  simp only [mirror_sub h, offsetOf_div, offsetOf_lt_iff esize false hblock, offsetOf_offsetOf]
  cases lowestFirst <;> rfl

end Transfers

/-! ## Steps -/

variable (esize) in
/-- Memory is accessed in aligned elements of one size. Rows are bytes. -/
def Accesses (a : State m) (inp : Inputs m) : Instr → Prop
  | .ld1 size | .st1 size => size = esize ∧ esize.bytes ∣ (a.typedBase inp esize).toNat
  | .ldr | .str => esize = .byte
  | _ => True

variable (esize) in
/-- The same state with every element of memory mirrored, for the other order. -/
def State.mirrored (a : State m) : State m.otherOrder :=
  { a with mem := fun addr => a.mem (mirror esize addr) }

theorem mem_mirrored_byte (a : State m) : (a.mirrored .byte).mem = a.mem := by
  show (fun addr => a.mem (mirror .byte addr)) = a.mem
  rw [mirror_byte]
  rfl

theorem setX_mirrored (a : State m) (n : BitVec 5) (v : BitVec 64) :
    (a.mirrored esize).setX n v = (a.setX n v).mirrored esize := by
  unfold State.setX
  by_cases h : n.toNat < 31
  · rw [dif_pos h, dif_pos h]
    rfl
  · rw [dif_neg h, dif_neg h]

theorem setXSp_mirrored (a : State m) (n : BitVec 5) (v : BitVec 64) :
    (a.mirrored esize).setXSp n v = (a.setXSp n v).mirrored esize := by
  unfold State.setXSp
  by_cases h : n.toNat < 31
  · rw [dif_pos h, dif_pos h]
    rfl
  · rw [dif_neg h, dif_neg h]
    rfl

section Steps

variable (fp : FpFunctions) (a : State m) (inp : Inputs m) {i : Instr}

theorem newX_mirrored (i : Instr) :
    newX (a.mirrored esize) inp.otherOrder i = (newX a inp i).mirrored esize := by
  cases i with
  | addspl | addsvl => exact setXSp_mirrored a inp.rd _
  | rdsvl => exact setX_mirrored a inp.rd _
  | _ => rfl

variable (h : Accesses esize a inp i)
include h

theorem newZa_mirrored : (a.mirrored esize).newZa inp.otherOrder fp i = a.newZa inp fp i := by
  cases i with
  | ld1 size =>
      obtain ⟨rfl, haligned⟩ := h
      have hload : loadVector m.otherOrder (a.mirrored size).mem
          ((a.mirrored size).typedBase inp.otherOrder size) size m.otherOrder.dramIsLE =
          loadVector m a.mem (a.typedBase inp size) size m.dramIsLE :=
        loadVector_mirror haligned a.mem m.dramIsLE
      unfold State.newZa
      dsimp only
      rw [hload]
      rfl
  | ldr =>
      obtain rfl : esize = .byte := h
      unfold State.newZa
      dsimp only
      rw [mem_mirrored_byte]
      rfl
  | _ => rfl

theorem newMem_mirrored (addr : BitVec 128) :
    newMem (a.mirrored esize) inp.otherOrder i addr = newMem a inp i (mirror esize addr) := by
  cases i with
  | st1 size =>
      obtain ⟨rfl, haligned⟩ := h
      exact storeVector_mirror haligned a.mem m.dramIsLE _ _ addr
  | str =>
      obtain rfl : esize = .byte := h
      unfold newMem
      dsimp only
      rw [mem_mirrored_byte, mirror_byte]
      rfl
  | _ => rfl

/-- Mirrored, a step of one model is the step of the other. -/
theorem exec_mirrored :
    exec fp i inp.otherOrder (a.mirrored esize) = (exec fp i inp a).mirrored esize := by
  have hnew : newX (a.mirrored esize) inp.otherOrder i = (newX a inp i).mirrored esize :=
    newX_mirrored a inp i
  ext1
  case za => exact newZa_mirrored fp a inp h
  case mem =>
    funext addr
    exact newMem_mirrored a inp h addr
  case x =>
    show (newX (a.mirrored esize) inp.otherOrder i).x = _
    rw [hnew]
    rfl
  case sp =>
    show (newX (a.mirrored esize) inp.otherOrder i).sp = _
    rw [hnew]
    rfl
  case z => cases i <;> rfl
  case p => cases i <;> rfl
  case faults => cases i <;> rfl
  all_goals rfl

end Steps

end Arch

end ArmSmeIla
