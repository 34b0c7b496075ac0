import ArmSmeIla.Properties.LoadStore
import ArmSmeIla.Properties.SpillFill

/-!
# Effective addresses

Addresses are 128 bits wide and their operands are zero-extended, so that no
sum ever overflows: an address is the plain sum of natural numbers. It is not
reduced to the 64 bits of a register, and an index is never negative.
-/

namespace ArmSmeIla

open Packing

variable {m : ArmSme} {fp : FpFunctions} {esize : ElementSize}

/-! ## Sums -/

/-- Byte `b` of element `i` of an `LD1` or `ST1`. -/
def typedAddress (s : State m) (inp : Inputs m) (esize : ElementSize) (i b : ℕ) : ℕ :=
  (get64BitGPR s inp.rn true).toNat + ((get64BitGPR s inp.rm).toNat + i) * esize.bytes + b

/-- Byte `k` of an `LDR` or `STR`. -/
def arrayAddress (s : State m) (inp : Inputs m) (k : ℕ) : ℕ :=
  (get64BitGPR s inp.rn true).toNat + inp.imm4.toNat * m.svlB + k

theorem typedAddress_eq (s : State m) (inp : Inputs m) (i b : ℕ) :
    typedAddress s inp esize i b = typedAddress s inp esize 0 0 + (i * esize.bytes + b) := by
  unfold typedAddress
  ring

theorem typedAddress_lt (s : State m) (inp : Inputs m) {i b : ℕ} (hi : i < m.dim esize)
    (hb : b < esize.bytes) : typedAddress s inp esize i b < 2 ^ 128 := by
  have hbase := (get64BitGPR s inp.rn true).isLt
  have hoffset := (get64BitGPR s inp.rm).isLt
  have hsvlB := m.svlB_lt
  have hdim := dim_le m esize
  have hbytes := esize.bytes_le
  have hmul : ((get64BitGPR s inp.rm).toNat + i) * esize.bytes ≤ 2 ^ 65 * 16 :=
    Nat.mul_le_mul (by omega) hbytes
  unfold typedAddress
  omega

theorem arrayAddress_lt (s : State m) (inp : Inputs m) {k : ℕ} (hk : k < m.svlB) :
    arrayAddress s inp k < 2 ^ 128 := by
  have hlt := spillStart_lt (m := m) (get64BitGPR s inp.rn true) inp.imm4
  unfold spillStart at hlt
  unfold arrayAddress
  omega

/-- `ZExt` to the address width makes the arithmetic of the source exact. -/
theorem typedBaseAddr_eq (s : State m) (inp : Inputs m) (esize : ElementSize) :
    typedBaseAddr s inp esize = BitVec.ofNat 128 (typedAddress s inp esize 0 0) := by
  apply BitVec.eq_of_toNat_eq
  simp only [typedBaseAddr, typedAddress, BitVec.toNat_add, BitVec.toNat_mul,
    BitVec.toNat_setWidth, BitVec.toNat_ofNat, Nat.mul_mod_mod, Nat.mod_mul_mod, Nat.add_mod_mod,
    Nat.mod_add_mod, Nat.add_zero]
  rfl

theorem arrayAddr_eq_arrayAddress (s : State m) (inp : Inputs m) :
    arrayAddr s inp = BitVec.ofNat 128 (arrayAddress s inp 0) :=
  arrayAddr_eq s inp

/-! ## Bytes of a vector -/

/-- In address order, byte `b` of element `i` is byte `memByte b` of its value. -/
theorem laneByteAddr_memByte (convertEndianness : Bool) (addr : BitVec 128) (i : ℕ) {b : ℕ}
    (hb : b < esize.bytes) :
    laneByteAddr m esize convertEndianness addr i (memByte esize (swaps m convertEndianness) b) =
      blockAddr addr (i * esize.bytes + b) := by
  rw [laneByteAddr, memByte_memByte _ hb]

section Typed

variable (s : State m) (inp : Inputs m)

theorem blockAddr_typedBaseAddr (esize : ElementSize) (i b : ℕ) :
    blockAddr (typedBaseAddr s inp esize) (i * esize.bytes + b) =
      BitVec.ofNat 128 (typedAddress s inp esize i b) := by
  rw [typedBaseAddr_eq, blockAddr, ← BitVec.ofNat_add, ← typedAddress_eq]

theorem laneByteAddr_typedAddress (i : ℕ) {b : ℕ} (hb : b < esize.bytes) :
    laneByteAddr m esize true (typedBaseAddr s inp esize) i (memByte esize (swaps m true) b) =
      BitVec.ofNat 128 (typedAddress s inp esize i b) := by
  rw [laneByteAddr_memByte true _ i hb, blockAddr_typedBaseAddr]

/-- Every byte of the block is a byte of some element. -/
theorem inBlock_typedAddress {addr : BitVec 128}
    (h : InBlock m (typedBaseAddr s inp esize) addr) :
    ∃ i < m.dim esize, ∃ b < esize.bytes,
      addr = BitVec.ofNat 128 (typedAddress s inp esize i b) := by
  rcases (inBlock_iff_laneByteAddr esize true _ addr).mp h with ⟨i, b, rfl⟩
  have hb := memByte_lt (swaps m true) b.isLt
  refine ⟨i, i.isLt, memByte esize (swaps m true) b, hb, ?_⟩
  rw [← laneByteAddr_typedAddress s inp i hb, memByte_memByte _ b.isLt]

end Typed

/-- What an `LD1` reads and an `ST1` writes: byte `b` of each active element
`i` at the address of that byte, and nothing else. -/
structure TypedAccess (fp : FpFunctions) (s : State m) (inp : Inputs m) (esize : ElementSize) :
    Prop where
  load : ∀ i < m.dim esize, ∀ b < esize.bytes,
    getElementInVectorFromLSB (getElementInVectorFromLSB
        (namedSlice (exec fp (.ld1 esize) inp s) inp esize) i esize.bits)
        (memByte esize (swaps m true) b) 8 =
      if isActivated (getPredicateRegister s inp.pg) i esize.bits then
        s.dram (BitVec.ofNat 128 (typedAddress s inp esize i b))
      else 0
  load_only : ∀ dram' : DramMem,
    (∀ i < m.dim esize, isActivated (getPredicateRegister s inp.pg) i esize.bits = true →
      ∀ b < esize.bytes, dram' (BitVec.ofNat 128 (typedAddress s inp esize i b)) =
        s.dram (BitVec.ofNat 128 (typedAddress s inp esize i b))) →
    (exec fp (.ld1 esize) inp { s with dram := dram' }).za = (exec fp (.ld1 esize) inp s).za
  store : ∀ i < m.dim esize, ∀ b < esize.bytes,
    (exec fp (.st1 esize) inp s).dram (BitVec.ofNat 128 (typedAddress s inp esize i b)) =
      if isActivated (getPredicateRegister s inp.pg) i esize.bits then
        getElementInVectorFromLSB (getElementInVectorFromLSB (namedSlice s inp esize) i esize.bits)
          (memByte esize (swaps m true) b) 8
      else s.dram (BitVec.ofNat 128 (typedAddress s inp esize i b))
  store_only : ∀ addr, (∀ i < m.dim esize, ∀ b < esize.bytes,
      addr ≠ BitVec.ofNat 128 (typedAddress s inp esize i b)) →
    (exec fp (.st1 esize) inp s).dram addr = s.dram addr

theorem elem_dramGetVector_typedAddress (s : State m) (inp : Inputs m) (i : SliceIdx m esize)
    {b : ℕ} (hb : b < esize.bytes) :
    elem (lanes esize (dramGetVectorAsZaEndian m s.dram (typedBaseAddr s inp esize) esize) i)
        (memByte esize (swaps m true) b) 8 =
      s.dram (BitVec.ofNat 128 (typedAddress s inp esize i b)) := by
  rw [← laneByteAddr_typedAddress s inp i hb]
  exact elem_dramGetVectorAsZaEndian s.dram _ true i ⟨_, memByte_lt _ hb⟩

theorem typedAccess (fp : FpFunctions) (s : State m) (inp : Inputs m) (esize : ElementSize) :
    TypedAccess fp s inp esize where
  load := by
    intro i hi b hb
    show elem (lanes esize (namedSlice (ld1 s inp esize) inp esize) ⟨i, hi⟩)
      (memByte esize (swaps m true) b) 8 = _
    rw [namedSlice_ld1, lanes_maskWithSinglePredicate_isActivated]
    by_cases hactive : isActivated (getPredicateRegister s inp.pg) i esize.bits = true
    · rw [if_pos hactive, if_pos hactive]
      exact elem_dramGetVector_typedAddress s inp ⟨i, hi⟩ hb
    · rw [if_neg hactive, if_neg hactive, if_pos rfl]
      exact elem_zero_vector _ _
  load_only := by
    intro dram' hagree
    have hread : maskWithSinglePredicate
        (dramGetVectorAsZaEndian m dram' (typedBaseAddr s inp esize) esize) 0 esize
        (getPredicateRegister s inp.pg) true =
      maskWithSinglePredicate
        (dramGetVectorAsZaEndian m s.dram (typedBaseAddr s inp esize) esize) 0 esize
        (getPredicateRegister s inp.pg) true := by
      apply lanes_injective esize
      funext i
      rw [lanes_maskWithSinglePredicate_isActivated, lanes_maskWithSinglePredicate_isActivated]
      refine ite_congr rfl (fun hactive => ?_) fun _ => rfl
      apply ext_elem esize.bits_eq
      intro b hb
      have hmem := memByte_memByte (swaps m true) hb
      have hlt := memByte_lt (swaps m true) hb
      rw [← hmem, elem_dramGetVector_typedAddress s inp i hlt]
      exact (elem_dramGetVector_typedAddress { s with dram := dram' } inp i hlt).trans
        (hagree i i.isLt hactive _ hlt)
    exact congrArg (updateSingleTypedSlice s.za inp.hv (toConstrainedTileIndex inp.zat esize)
      (sliceIdx s inp esize) esize) hread
  store := by
    intro i hi b hb
    have hstore := dramSetVector_laneByteAddr s (typedBaseAddr s inp esize)
      (maskWithSinglePredicate (namedSlice s inp esize)
        (dramGetVectorAsZaEndian m s.dram (typedBaseAddr s inp esize) esize) esize
        (getPredicateRegister s inp.pg)) esize true ⟨i, hi⟩ ⟨_, memByte_lt (swaps m true) hb⟩
    rw [laneByteAddr_typedAddress s inp i hb, lanes_maskWithSinglePredicate_isActivated] at hstore
    refine hstore.trans ?_
    by_cases hactive : isActivated (getPredicateRegister s inp.pg) i esize.bits = true
    · rw [if_pos hactive, if_pos hactive]
      rfl
    · rw [if_neg hactive, if_neg hactive, if_neg Bool.false_ne_true]
      exact elem_dramGetVector_typedAddress s inp ⟨i, hi⟩ hb
  store_only := by
    intro addr hout
    apply dramSetVector_outside
    intro hin
    rcases inBlock_typedAddress s inp hin with ⟨i, hi, b, hb, haddr⟩
    exact hout i hi b hb haddr

/-! ## Rows -/

/-- What an `LDR` reads and an `STR` writes: byte `k` of the row at the address
of that byte, and nothing else. -/
structure ArrayAccess (fp : FpFunctions) (s : State m) (inp : Inputs m) : Prop where
  load : ∀ k < m.svlB,
    getElementInVectorFromLSB (getTypedHorizontalSlice (exec fp .ldr inp s).za (arrayRow s inp)
      (BitVec.ofNat m.zaAddrWidth 0) .byte) k 8 = s.dram (BitVec.ofNat 128 (arrayAddress s inp k))
  load_only : ∀ dram' : DramMem,
    (∀ k < m.svlB, dram' (BitVec.ofNat 128 (arrayAddress s inp k)) =
      s.dram (BitVec.ofNat 128 (arrayAddress s inp k))) →
    (exec fp .ldr inp { s with dram := dram' }).za = (exec fp .ldr inp s).za
  store : ∀ k < m.svlB,
    (exec fp .str inp s).dram (BitVec.ofNat 128 (arrayAddress s inp k)) =
      getElementInVectorFromLSB (getTypedHorizontalSlice s.za (arrayRow s inp)
        (BitVec.ofNat m.zaAddrWidth 0) .byte) k 8
  store_only : ∀ addr, (∀ k < m.svlB, addr ≠ BitVec.ofNat 128 (arrayAddress s inp k)) →
    (exec fp .str inp s).dram addr = s.dram addr

theorem blockAddr_arrayAddr (s : State m) (inp : Inputs m) (k : ℕ) :
    blockAddr (arrayAddr s inp) k = BitVec.ofNat 128 (arrayAddress s inp k) := by
  rw [arrayAddr_eq, spillBlock, blockAddr, ← BitVec.ofNat_add]
  rfl

theorem elem_dramGetVector_arrayAddress (s : State m) (inp : Inputs m) {k : ℕ} (hk : k < m.svlB) :
    elem (dramGetVectorAsZaEndian m s.dram (arrayAddr s inp) .byte false) k 8 =
      s.dram (BitVec.ofNat 128 (arrayAddress s inp k)) := by
  rw [elem_dramGetVector_of_swaps s.dram _ (Or.inr rfl) hk, blockAddr_arrayAddr]

theorem arrayAccess (fp : FpFunctions) (s : State m) (inp : Inputs m) : ArrayAccess fp s inp where
  load := by
    intro k hk
    have hrow := getTypedSlice_updateSingleTypedSlice (t := za0B)
      (toNat_eq_za0B m.zaAddrWidth) s.za false (arrayRow s inp)
      (dramGetVectorAsZaEndian m s.dram (arrayAddr s inp) .byte false)
    exact (congrArg (elem · k 8) hrow).trans (elem_dramGetVector_arrayAddress s inp hk)
  load_only := by
    intro dram' hagree
    have hread : dramGetVectorAsZaEndian m dram' (arrayAddr s inp) .byte false =
        dramGetVectorAsZaEndian m s.dram (arrayAddr s inp) .byte false := by
      apply ext_elem m.svl_eq
      intro k hk
      rw [elem_dramGetVector_arrayAddress s inp hk]
      exact (elem_dramGetVector_arrayAddress { s with dram := dram' } inp hk).trans (hagree k hk)
    exact congrArg (setTypedHorizontalSlice s.za (arrayRow s inp) (BitVec.ofNat m.zaAddrWidth 0)
      .byte) hread
  store := by
    intro k hk
    have hbyte : elem (dramGetVectorAsZaEndian m (str s inp).dram (arrayAddr s inp) .byte false)
        k 8 = (str s inp).dram (BitVec.ofNat 128 (arrayAddress s inp k)) :=
      elem_dramGetVector_arrayAddress (str s inp) inp hk
    rw [dramGetVector_str] at hbyte
    exact hbyte.symm
  store_only := by
    intro addr hout
    apply dramSetVector_outside
    intro hin
    rcases (inBlock_iff _ addr).mp hin with ⟨k, hk, rfl⟩
    exact hout k hk (blockAddr_arrayAddr s inp k)

/-! ## Register choices -/

/-- Registers with the same effective address are interchangeable. -/
theorem typedAccess_congr (fp : FpFunctions) (s : State m) (inp : Inputs m) (rn rm : BitVec 5)
    (h : typedAddress s { inp with rn := rn, rm := rm } esize 0 0 =
      typedAddress s inp esize 0 0) :
    (exec fp (.ld1 esize) { inp with rn := rn, rm := rm } s).za =
        (exec fp (.ld1 esize) inp s).za ∧
      (exec fp (.st1 esize) { inp with rn := rn, rm := rm } s).dram =
        (exec fp (.st1 esize) inp s).dram := by
  have haddr : typedBaseAddr s { inp with rn := rn, rm := rm } esize =
      typedBaseAddr s inp esize := by
    rw [typedBaseAddr_eq, typedBaseAddr_eq, h]
  constructor
  · show (ld1 s { inp with rn := rn, rm := rm } esize).za = (ld1 s inp esize).za
    simp only [ld1, haddr]
    rfl
  · show (st1 s { inp with rn := rn, rm := rm } esize).dram = (st1 s inp esize).dram
    simp only [st1, haddr]
    rfl

theorem arrayAccess_congr (fp : FpFunctions) (s : State m) (inp : Inputs m) (rn : BitVec 5)
    (h : arrayAddress s { inp with rn := rn } 0 = arrayAddress s inp 0) :
    (exec fp .ldr { inp with rn := rn } s).za = (exec fp .ldr inp s).za ∧
      (exec fp .str { inp with rn := rn } s).dram = (exec fp .str inp s).dram := by
  have haddr : arrayAddr s { inp with rn := rn } = arrayAddr s inp := by
    rw [arrayAddr_eq_arrayAddress, arrayAddr_eq_arrayAddress, h]
  constructor
  · show (ldr s { inp with rn := rn }).za = (ldr s inp).za
    simp only [ldr, haddr]
    rfl
  · show (str s { inp with rn := rn }).dram = (str s inp).dram
    simp only [str, haddr]
    rfl

/-- Typed transfers access byte `b` of element `i` at
`base + (offset + i) * bytes + b`, row transfers byte `k` at
`base + Imm4 * SVL_B + k`. No sum wraps around or goes below the base. -/
theorem addresses_exact (fp : FpFunctions) (m : ArmSme) (s : State m) (inp : Inputs m) :
    (∀ esize, TypedAccess fp s inp esize) ∧ ArrayAccess fp s inp ∧
    (∀ esize, ∀ i < m.dim esize, ∀ b < esize.bytes,
      (get64BitGPR s inp.rn true).toNat ≤ typedAddress s inp esize i b ∧
        typedAddress s inp esize i b < 2 ^ 128) ∧
    (∀ k < m.svlB, (get64BitGPR s inp.rn true).toNat ≤ arrayAddress s inp k ∧
      arrayAddress s inp k < 2 ^ 128) ∧
    (∀ (esize : ElementSize) (rn rm : BitVec 5),
      typedAddress s { inp with rn := rn, rm := rm } esize 0 0 = typedAddress s inp esize 0 0 →
      (exec fp (.ld1 esize) { inp with rn := rn, rm := rm } s).za =
          (exec fp (.ld1 esize) inp s).za ∧
        (exec fp (.st1 esize) { inp with rn := rn, rm := rm } s).dram =
          (exec fp (.st1 esize) inp s).dram) ∧
    ∀ rn : BitVec 5,
      arrayAddress s { inp with rn := rn } 0 = arrayAddress s inp 0 →
      (exec fp .ldr { inp with rn := rn } s).za = (exec fp .ldr inp s).za ∧
        (exec fp .str { inp with rn := rn } s).dram = (exec fp .str inp s).dram := by
  refine ⟨typedAccess fp s inp, arrayAccess fp s inp, ?_, ?_, ?_, ?_⟩
  · intro esize i hi b hb
    exact ⟨by unfold typedAddress; omega, typedAddress_lt s inp hi hb⟩
  · intro k hk
    exact ⟨by unfold arrayAddress; omega, arrayAddress_lt s inp hk⟩
  · intro esize rn rm h
    exact typedAccess_congr fp s inp rn rm h
  · intro rn h
    exact arrayAccess_congr fp s inp rn h

/-- 16 with index 2 and 24 with index 0 are one address for words. -/
theorem addresses_exact_word :
    let s : State smeDramLE := { (default : State smeDramLE) with
      dram := fun addr => addr.setWidth 8, pRegs := fun _ => 0xFFFF,
      gprs := fun i => if i = 1 then 16 else if i = 2 then 2 else if i = 3 then 24 else 0 }
    let inp : Inputs smeDramLE := { (default : Inputs smeDramLE) with rn := 1, rm := 2 }
    (exec default (.ld1 .word) { inp with rn := 3, rm := 31 } s).za =
      (exec default (.ld1 .word) inp s).za := by
  intro s inp
  exact ((addresses_exact default smeDramLE s inp).2.2.2.2.1 .word 3 31 (by decide)).1

/-- 16 with index -1 and 15 with index 0 are the same address modulo 2 ^ 64,
and the byte there is 1; the first loads a 0. -/
theorem negative_index_not_below_base :
    let s : State smeDramLE := { (default : State smeDramLE) with
      dram := fun addr => if addr = 15 then 1 else 0, pRegs := fun _ => 0xFFFF,
      gprs := fun i => if i = 1 then 16 else if i = 2 then -1 else if i = 3 then 15 else 0 }
    let inp : Inputs smeDramLE := { (default : Inputs smeDramLE) with rn := 1, rm := 2 }
    let inp' : Inputs smeDramLE := { inp with rn := 3, rm := 31 }
    typedAddress s inp .byte 0 0 % 2 ^ 64 = 15 ∧ typedAddress s inp' .byte 0 0 = 15 ∧
      s.dram 15 = 1 ∧
      getElementInVectorFromLSB (namedSlice (exec default (.ld1 .byte) inp s) inp .byte) 0 8 ≠
        s.dram (BitVec.ofNat 128 (typedAddress s inp .byte 0 0 % 2 ^ 64)) ∧
      (exec default (.ld1 .byte) inp s).za ≠ (exec default (.ld1 .byte) inp' s).za := by
  intro s inp inp'
  have hload : elem (namedSlice (ld1 s inp .byte) inp .byte) 0 8 =
      s.dram (BitVec.ofNat 128 (typedAddress s inp .byte 0 0)) :=
    (elem_self _).symm.trans
      (((typedAccess default s inp .byte).load 0 (by decide) 0 (by decide)).trans
        (if_pos (by decide)))
  have hload' : elem (namedSlice (ld1 s inp' .byte) inp' .byte) 0 8 =
      s.dram (BitVec.ofNat 128 (typedAddress s inp' .byte 0 0)) :=
    (elem_self _).symm.trans
      (((typedAccess default s inp' .byte).load 0 (by decide) 0 (by decide)).trans
        (if_pos (by decide)))
  refine ⟨by decide, by decide, by decide, ?_, ?_⟩
  · intro h
    exact absurd (hload.symm.trans h) (by decide)
  · intro hza
    have hsame : elem (namedSlice (ld1 s inp .byte) inp .byte) 0 8 =
        elem (namedSlice (ld1 s inp' .byte) inp' .byte) 0 8 :=
      congrArg (fun za => elem (getTypedSlice za inp.hv (toConstrainedTileIndex inp.zat .byte)
        (sliceIdx s inp .byte) .byte) 0 8) hza
    exact absurd (hload.symm.trans (hsame.trans hload')) (by decide)

end ArmSmeIla
