import ArmSmeIla.Properties.SpillFill
import ArmSmeIla.Views.CombineMatrix

/-!
# LD1 and LDR agree

With little endian DRAM, swapping the bytes of each element and reversing the
order of the elements is one reversal of the vector, whatever the element size.
So a full `LD1` of a horizontal slice loads what `LDR` loads into the ZA row of
that slice.
-/

namespace ArmSmeIla

open Packing

variable {m : ArmSme} {esize : ElementSize}

/-- All vector reads that swap, and all byte reads, are one read. -/
theorem dramGetVector_eq_bytes (dram : DramMem) (base : BitVec 128) {convertEndianness : Bool}
    (h : swaps m convertEndianness = true ∨ esize = .byte) :
    dramGetVectorAsZaEndian m dram base esize convertEndianness =
      dramGetVectorAsZaEndian m dram base .byte false := by
  apply ext_elem m.svl_eq
  intro j hj
  rw [elem_dramGetVector_of_swaps dram base h hj,
    elem_dramGetVector_of_swaps dram base (Or.inr rfl) hj]

/-- With all elements active a mask selects the source. -/
theorem maskWithSinglePredicate_of_all {source dest : BitVec m.svl} {mask : BitVec m.pRegWidth}
    (h : ∀ i < m.dim esize, isActivated mask i esize.bits = true) (isZeroMode : Bool) :
    maskWithSinglePredicate source dest esize mask isZeroMode = source := by
  apply lanes_injective esize
  funext i
  rw [lanes_maskWithSinglePredicate_isActivated, if_pos (h i i.isLt)]

/-- Converting reads of little endian DRAM do not depend on the element size,
and `LD1` into slice `k` of tile `t` is `LDR` into row `t + k * bytes`. -/
theorem ld1_ldr_agree (fp : FpFunctions) (m : ArmSme) :
    (m.dramIsLE = true → ∀ (dram : DramMem) (base : BitVec 128) (esize : ElementSize),
      dramGetVectorAsZaEndian m dram base esize =
        dramGetVectorAsZaEndian m dram base .byte false) ∧
    ∀ (esize : ElementSize) (s : State m) (ld ldr : Inputs m),
      m.dramIsLE = true ∨ esize = .byte → ld.hv = false →
      (∀ i < m.dim esize,
        isActivated (getPredicateRegister s ld.pg) i esize.bits = true) →
      typedBaseAddr s ld esize = arrayAddr s ldr →
      (arrayRow s ldr).toNat = (toConstrainedTileIndex ld.zat esize).toNat +
        (sliceIdx s ld esize).toNat % m.dim esize * (esize.bits / 8) →
      (exec fp (.ld1 esize) ld s).za = (exec fp .ldr ldr s).za := by
  have hswaps : ∀ esize : ElementSize, m.dramIsLE = true ∨ esize = .byte →
      swaps m true = true ∨ esize = .byte := by
    rintro esize (h | h)
    · exact Or.inl h
    · exact Or.inr h
  constructor
  · intro hle dram base esize
    exact dramGetVector_eq_bytes dram base (hswaps esize (Or.inl hle))
  · intro esize s ld ldr hcase hhv hactive haddr hrow
    have htile := toConstrainedTileIndex_toNat ld.zat esize
    have hdata : maskWithSinglePredicate
        (dramGetVectorAsZaEndian m s.dram (typedBaseAddr s ld esize) esize) 0 esize
        (getPredicateRegister s ld.pg) true =
          dramGetVectorAsZaEndian m s.dram (arrayAddr s ldr) .byte false := by
      rw [maskWithSinglePredicate_of_all hactive,
        dramGetVector_eq_bytes _ _ (hswaps esize hcase), haddr]
    have hidx : (tileOf esize ld.zat : ℕ) + sliceOf m esize (sliceIdx s ld esize) * esize.bytes =
        za0B + sliceOf m .byte (arrayRow s ldr) * ElementSize.byte.bytes := by
      rw [sliceOf_arrayRow_val, hrow, htile]
      exact ((Nat.zero_add _).trans (Nat.mul_one _)).symm
    have hld := setTypedHorizontalSlice_eq_row htile s.za (sliceIdx s ld esize)
      (dramGetVectorAsZaEndian m s.dram (arrayAddr s ldr) .byte false)
    have hldr := setTypedHorizontalSlice_eq_row (toNat_eq_za0B m.zaAddrWidth) s.za
      (arrayRow s ldr) (dramGetVectorAsZaEndian m s.dram (arrayAddr s ldr) .byte false)
    rw [hidx] at hld
    calc (exec fp (.ld1 esize) ld s).za
        = updateSingleTypedSlice s.za ld.hv (toConstrainedTileIndex ld.zat esize)
            (sliceIdx s ld esize) esize (maskWithSinglePredicate
              (dramGetVectorAsZaEndian m s.dram (typedBaseAddr s ld esize) esize) 0 esize
              (getPredicateRegister s ld.pg) true) := rfl
      _ = setTypedHorizontalSlice s.za (sliceIdx s ld esize) (toConstrainedTileIndex ld.zat esize)
            esize (dramGetVectorAsZaEndian m s.dram (arrayAddr s ldr) .byte false) := by
          rw [hdata, hhv]
          rfl
      _ = setTypedHorizontalSlice s.za (arrayRow s ldr) (BitVec.ofNat m.zaAddrWidth 0) .byte
            (dramGetVectorAsZaEndian m s.dram (arrayAddr s ldr) .byte false) :=
          hld.trans hldr.symm
      _ = (exec fp .ldr ldr s).za := rfl

/-- Slice 2 of `ZA1.H` is row 5; 40 halfwords are as far as five vectors. -/
theorem ld1_ldr_agree_half :
    let s : State smeDramLE := { (default : State smeDramLE) with
      dram := fun addr => addr.setWidth 8, pRegs := fun _ => 0xFFFF,
      gprs := fun i => if i = 1 then 40 else 0 }
    let ld : Inputs smeDramLE := { (default : Inputs smeDramLE) with zat := 1, rm := 1, imm := 2 }
    let ldr : Inputs smeDramLE := { (default : Inputs smeDramLE) with imm := 5 }
    (exec default (.ld1 .half) ld s).za = (exec default .ldr ldr s).za := by
  intro s ld ldr
  exact (ld1_ldr_agree default smeDramLE).2 .half s ld ldr (Or.inl rfl) rfl (by decide) (by decide)
    (by decide)

end ArmSmeIla
