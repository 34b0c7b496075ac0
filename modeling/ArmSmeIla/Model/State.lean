import Mathlib

/-!
# The ARM SME model: sizes, states and inputs

`arm.h`, `config.h` and the constructor of `ArmSme` (`arm.cc`). A value of
`ArmSme` is one built model: the streaming vector length `SVL` and the DRAM
endianness are compile-time constants of the ILA, so they are parameters
here too. Everything else is a state variable or an input of the ILA.
-/

namespace ArmSmeIla

/-- The element sizes `BYTE`, `HALF`, `WORD`, `DOUBLE` and `QUAD`. -/
inductive ElementSize where
  | byte
  | half
  | word
  | double
  | quad
deriving DecidableEq, Repr

namespace ElementSize

/-- `element_size_bits`. -/
def bits : ElementSize → ℕ
  | .byte => 8
  | .half => 16
  | .word => 32
  | .double => 64
  | .quad => 128

/-- `element_size_bits / BYTE`. -/
def bytes (esize : ElementSize) : ℕ := esize.bits / 8

theorem bits_eq (esize : ElementSize) : esize.bits = esize.bytes * 8 := by
  cases esize <;> rfl

theorem bytes_pos (esize : ElementSize) : 0 < esize.bytes := by
  cases esize <;> decide

theorem bits_pos (esize : ElementSize) : 0 < esize.bits := by
  cases esize <;> decide

theorem bytes_le (esize : ElementSize) : esize.bytes ≤ 16 := by
  cases esize <;> decide

/-- Every element size in bytes is a power of two up to 16. -/
theorem bytes_eq_pow (esize : ElementSize) : ∃ j ≤ 4, esize.bytes = 2 ^ j := by
  cases esize
  · exact ⟨0, by decide, rfl⟩
  · exact ⟨1, by decide, rfl⟩
  · exact ⟨2, by decide, rfl⟩
  · exact ⟨3, by decide, rfl⟩
  · exact ⟨4, by decide, rfl⟩

/-- Element sizes are totally ordered by divisibility. -/
theorem bytes_dvd (smaller esize : ElementSize) (h : smaller.bytes ≤ esize.bytes) :
    smaller.bytes ∣ esize.bytes := by
  obtain ⟨i, _, hi⟩ := smaller.bytes_eq_pow
  obtain ⟨j, _, hj⟩ := esize.bytes_eq_pow
  rw [hi, hj] at h ⊢
  exact Nat.pow_dvd_pow 2 ((Nat.pow_le_pow_iff_right (by decide)).mp h)

end ElementSize

/-- A built model. `SVL` must be at least 128 to support `QUAD` (`arm.h`); it
is a `NumericType`, that is a `uint64_t`. -/
structure ArmSme where
  dramIsLE : Bool
  svl : ℕ
  svl_pow : svl.isPowerOfTwo
  svl_ge : 128 ≤ svl
  svl_lt : svl < 2 ^ 64

namespace ArmSme

variable (m : ArmSme)

/-! ## Dimension metrics -/

/-- The current implementation fixes ZA to big endian. -/
def zaIsLE (_ : ArmSme) : Bool := false

def svlB : ℕ := m.svl / 8
def log2SvlB : ℕ := Nat.log2 m.svlB
def zaByteSize : ℕ := m.svlB * m.svlB
def zaAddrWidth : ℕ := Nat.log2 m.zaByteSize

/-- `P_REG_WIDTH`. -/
abbrev pRegWidth : ℕ := m.svlB

/-- `BIG_DRAM_ADDR_WIDTH`. -/
abbrev dramAddrWidth : ℕ := 128

/-- Rows, and columns, of elements in a tile: `SVL / element_size_bits`. -/
def dim (esize : ElementSize) : ℕ := m.svl / esize.bits

/-- `SVL_B / dim`. -/
def numTiles (esize : ElementSize) : ℕ := m.svlB / m.dim esize

/-- The exponent behind all sizes of one model. -/
theorem exists_svlB_eq_pow : ∃ k, 4 ≤ k ∧ k ≤ 60 ∧ m.svl = 8 * 2 ^ k ∧ m.svlB = 2 ^ k := by
  obtain ⟨j, hj⟩ := m.svl_pow
  have hge : 7 ≤ j := by
    have h : (2 : ℕ) ^ 7 ≤ 2 ^ j := hj ▸ m.svl_ge
    exact (Nat.pow_le_pow_iff_right (by decide)).mp h
  have hlt : j < 64 := by
    have h : (2 : ℕ) ^ j < 2 ^ 64 := hj ▸ m.svl_lt
    exact (Nat.pow_lt_pow_iff_right (by decide)).mp h
  obtain ⟨k, rfl⟩ := Nat.exists_eq_add_of_le hge
  refine ⟨4 + k, by omega, by omega, ?_, ?_⟩
  · rw [hj, pow_add, pow_add]
    ring
  · rw [svlB, hj, pow_add, pow_add]
    omega

theorem svl_eq : m.svl = m.svlB * 8 := by
  obtain ⟨k, _, _, hs, hb⟩ := m.exists_svlB_eq_pow
  rw [hs, hb, Nat.mul_comm]

theorem svlB_ge : 16 ≤ m.svlB := by
  have h := m.svl_ge
  have := m.svl_eq
  omega

theorem sixteen_dvd_svlB : 16 ∣ m.svlB := by
  obtain ⟨k, hk, _, _, hb⟩ := m.exists_svlB_eq_pow
  rw [hb]
  exact Nat.pow_dvd_pow 2 hk

theorem svlB_pos : 0 < m.svlB := Nat.lt_of_lt_of_le (by decide) m.svlB_ge

theorem svlB_lt : m.svlB < 2 ^ 64 := by
  have h := m.svl_lt
  have := m.svl_eq
  omega

theorem svlB_eq_pow : m.svlB = 2 ^ m.log2SvlB := by
  obtain ⟨k, _, _, _, hb⟩ := m.exists_svlB_eq_pow
  rw [log2SvlB, hb, Nat.log2_two_pow]

/-- `ZA_ADDR_WIDTH` bits address exactly the `SVL_B * SVL_B` bytes of ZA. -/
theorem two_pow_zaAddrWidth : 2 ^ m.zaAddrWidth = m.svlB * m.svlB := by
  obtain ⟨k, _, _, _, hb⟩ := m.exists_svlB_eq_pow
  rw [zaAddrWidth, zaByteSize, hb, ← pow_add, Nat.log2_two_pow]

theorem dim_eq_pow (esize : ElementSize) :
    ∃ j, m.dim esize = 2 ^ j ∧ m.dim esize * esize.bytes = m.svlB := by
  obtain ⟨k, hk, _, hs, hb⟩ := m.exists_svlB_eq_pow
  obtain ⟨j, hj, he⟩ := esize.bytes_eq_pow
  obtain ⟨i, rfl⟩ := Nat.exists_eq_add_of_le (Nat.le_trans hj hk)
  have hdim : m.dim esize = 2 ^ i := by
    rw [dim, esize.bits_eq, he, hs, Nat.mul_comm 8, Nat.mul_div_mul_right _ _ (by decide), pow_add]
    exact Nat.mul_div_cancel_left _ (Nat.two_pow_pos j)
  refine ⟨i, hdim, ?_⟩
  rw [hdim, he, hb, pow_add, Nat.mul_comm]

@[simp]
theorem dim_mul_bytes (esize : ElementSize) : m.dim esize * esize.bytes = m.svlB := by
  obtain ⟨_, _, h⟩ := m.dim_eq_pow esize
  exact h

theorem dim_mul_bits (esize : ElementSize) : m.dim esize * esize.bits = m.svl := by
  rw [esize.bits_eq, ← Nat.mul_assoc, dim_mul_bytes, ← svl_eq]

theorem dim_pos (esize : ElementSize) : 0 < m.dim esize := by
  obtain ⟨j, h, _⟩ := m.dim_eq_pow esize
  rw [h]
  exact Nat.two_pow_pos j

theorem two_pow_log2_dim (esize : ElementSize) : 2 ^ Nat.log2 (m.dim esize) = m.dim esize := by
  obtain ⟨j, h, _⟩ := m.dim_eq_pow esize
  rw [h, Nat.log2_two_pow]

@[simp]
theorem dim_byte : m.dim .byte = m.svlB := rfl

/-- `SVL_B / (SVL / esize) = esize / 8`, the source's comment (2). -/
@[simp]
theorem numTiles_eq (esize : ElementSize) : m.numTiles esize = esize.bytes := by
  rw [numTiles, ← m.dim_mul_bytes esize]
  exact Nat.mul_div_cancel_left _ (m.dim_pos esize)

/-- The models are exactly the powers of two from 128 that a `NumericType`
holds, under either DRAM endianness. -/
theorem exists_svl_iff (dramIsLE : Bool) (svl : ℕ) :
    (∃ m : ArmSme, m.dramIsLE = dramIsLE ∧ m.svl = svl) ↔
      svl.isPowerOfTwo ∧ 128 ≤ svl ∧ svl < 2 ^ 64 := by
  constructor
  · rintro ⟨m, rfl, rfl⟩
    exact ⟨m.svl_pow, m.svl_ge, m.svl_lt⟩
  · rintro ⟨hpow, hge, hlt⟩
    exact ⟨⟨dramIsLE, svl, hpow, hge, hlt⟩, rfl, rfl⟩

end ArmSme

/-! The models that `main.cc` builds. -/

def smeDramLE : ArmSme := ⟨true, 128, ⟨7, rfl⟩, by decide, by decide⟩
def smeDramBE : ArmSme := ⟨false, 128, ⟨7, rfl⟩, by decide, by decide⟩
def smeLargeSVL : ArmSme := ⟨true, 256, ⟨8, rfl⟩, by decide, by decide⟩

/-- A ZA byte memory: `NewMemState("ZA", ZA_ADDR_WIDTH, BYTE)`. -/
abbrev ZaMem (m : ArmSme) : Type := BitVec m.zaAddrWidth → BitVec 8

/-- A DRAM byte memory (`USE_DRAM_MEMSTATE = true`). -/
abbrev DramMem : Type := BitVec 128 → BitVec 8

/-- The state variables of the ILA. -/
@[ext]
structure State (m : ArmSme) where
  faults : BitVec 8
  za : ZaMem m
  pstateSm : Bool
  pstateZa : Bool
  sp : BitVec 64
  zRegs : Fin 32 → BitVec m.svl
  pRegs : Fin 16 → BitVec m.pRegWidth
  gprs : Fin 31 → BitVec 64
  dram : DramMem
  wbSvlVector : BitVec m.svl
  wbBaseAddr : BitVec 128
deriving Inhabited

/-- The input variables of the ILA: free at every step. -/
structure Inputs (m : ArmSme) where
  cmd : BitVec 32
  zada : BitVec m.log2SvlB
  zan : BitVec m.log2SvlB
  zad : BitVec m.log2SvlB
  zat : BitVec m.log2SvlB
  hv : Bool
  rs : BitVec 5
  rv : BitVec 5
  rn : BitVec 5
  rm : BitVec 5
  rd : BitVec 5
  imm : BitVec 8
  pg : BitVec 4
  pd : BitVec 4
  pn : BitVec 4
  pm : BitVec 4
  zd : BitVec 5
  zn : BitVec 5
  zm : BitVec 5
deriving Inhabited

namespace Inputs

variable {m : ArmSme} (inp : Inputs m)

/-! `ImmN` is the low `N` bits of `Imm`. -/

def imm1 : BitVec 1 := inp.imm.extractLsb' 0 1
def imm2 : BitVec 2 := inp.imm.extractLsb' 0 2
def imm3 : BitVec 3 := inp.imm.extractLsb' 0 3
def imm4 : BitVec 4 := inp.imm.extractLsb' 0 4
def imm6 : BitVec 6 := inp.imm.extractLsb' 0 6
def imm8 : BitVec 8 := inp.imm.extractLsb' 0 8

end Inputs

/-- The floating-point operations the instructions leave uninterpreted. `bf16`
and `fp16` are both 16-bit vectors here, as in the ILA. -/
structure FpFunctions where
  fpneg64 : BitVec 64 → BitVec 64
  fpneg32 : BitVec 32 → BitVec 32
  fpneg16 : BitVec 16 → BitVec 16
  bfneg16 : BitVec 16 → BitVec 16
  fpmac64 : BitVec 64 → BitVec 64 → BitVec 64 → BitVec 64
  fpmac32 : BitVec 32 → BitVec 32 → BitVec 32 → BitVec 32
  fpdotadd16to32 :
    BitVec 32 → BitVec 16 → BitVec 16 → BitVec 16 → BitVec 16 → BitVec 32
  bfdotadd16to32 :
    BitVec 32 → BitVec 16 → BitVec 16 → BitVec 16 → BitVec 16 → BitVec 32
deriving Inhabited

end ArmSmeIla
