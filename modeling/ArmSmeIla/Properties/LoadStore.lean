import ArmSmeIla.Views.CombineMatrix
import ArmSmeIla.Views.DramBlock
import ArmSmeIla.Views.Footprints
import ArmSmeIla.Views.TypedSlices

/-!
# Round trips through DRAM

A predicated store and load of slices, in both orders.
-/

namespace ArmSmeIla

open Packing Lines

variable {m : ArmSme} {fp : FpFunctions} {esize : ElementSize}

/-! ## ST1 and LD1 -/

/-- The value of the slice that an `LD1` or `ST1` names. -/
def namedSlice (s : State m) (inp : Inputs m) (esize : ElementSize) : BitVec m.svl :=
  getTypedSlice s.za inp.hv (toConstrainedTileIndex inp.zat esize) (sliceIdx s inp esize) esize

/-- Which slice that is. -/
def sliceName (s : State m) (inp : Inputs m) (esize : ElementSize) :
    Bool × TileIdx esize × SliceIdx m esize :=
  (inp.hv, tileOf esize inp.zat, sliceOf m esize (sliceIdx s inp esize))

theorem lanes_namedSlice (s : State m) (inp : Inputs m) :
    lanes esize (namedSlice s inp esize) =
      line inp.hv (tiles esize s.za) (tileOf esize inp.zat)
        (sliceOf m esize (sliceIdx s inp esize)) :=
  lanes_getTypedSlice (toConstrainedTileIndex_toNat inp.zat esize) s.za inp.hv _

/-- `LD1` puts the active elements of DRAM into the slice and zeroes the rest. -/
theorem namedSlice_ld1 (s : State m) (inp : Inputs m) :
    namedSlice (ld1 s inp esize) inp esize =
      maskWithSinglePredicate
        (dramGetVectorAsZaEndian m s.dram (typedBaseAddr s inp esize) esize) 0 esize
        (getPredicateRegister s inp.pg) true :=
  getTypedSlice_updateSingleTypedSlice (toConstrainedTileIndex_toNat inp.zat esize) s.za inp.hv _ _

/-- `ST1` merges the active elements of the slice into the vector in DRAM. -/
theorem dramGetVector_st1 (s : State m) (inp : Inputs m) :
    dramGetVectorAsZaEndian m (st1 s inp esize).dram (typedBaseAddr s inp esize) esize =
      maskWithSinglePredicate (namedSlice s inp esize)
        (dramGetVectorAsZaEndian m s.dram (typedBaseAddr s inp esize) esize) esize
        (getPredicateRegister s inp.pg) :=
  dramGetVector_dramSetVector s _ _ esize true

section RoundTrip

variable (s : State m) {st ld : Inputs m}
  (hpg : getPredicateRegister s ld.pg = getPredicateRegister s st.pg)
  (hrn : get64BitGPR s ld.rn true = get64BitGPR s st.rn true)
  (hrm : get64BitGPR s ld.rm = get64BitGPR s st.rm)

include hpg hrn hrm

theorem namedSlice_ld1_st1 (i : SliceIdx m esize) :
    lanes esize (namedSlice (ld1 (st1 s st esize) ld esize) ld esize) i =
      if (getPredicateRegister s st.pg).getLsbD (i * esize.bytes) then
        lanes esize (namedSlice s st esize) i
      else 0 := by
  have haddr : typedBaseAddr (st1 s st esize) ld esize = typedBaseAddr s st esize :=
    typedBaseAddr_congr hrn hrm esize
  have hmask : getPredicateRegister (st1 s st esize) ld.pg = getPredicateRegister s st.pg := hpg
  rw [namedSlice_ld1, haddr, hmask, dramGetVector_st1, maskWithSinglePredicate_mask,
    lanes_maskWithSinglePredicate, if_pos rfl]

/-- The store writes back what the load has read: the active elements went
through the slice, the others are merged from DRAM. -/
theorem dram_st1_ld1 (hslice : sliceName s ld esize = sliceName s st esize) :
    (st1 (ld1 s ld esize) st esize).dram = s.dram := by
  have haddr : typedBaseAddr (ld1 s ld esize) st esize = typedBaseAddr s ld esize :=
    (typedBaseAddr_congr hrn hrm esize).symm
  have hmask : getPredicateRegister (ld1 s ld esize) st.pg = getPredicateRegister s ld.pg :=
    hpg.symm
  have hsame : namedSlice (ld1 s ld esize) st esize = namedSlice (ld1 s ld esize) ld esize := by
    simp only [sliceName, Prod.mk.injEq] at hslice
    rcases hslice with ⟨hhv, htile, hidx⟩
    have ht : (toConstrainedTileIndex st.zat esize).toNat = tileOf esize ld.zat := by
      rw [toConstrainedTileIndex_toNat, htile]
    rw [namedSlice, namedSlice, ← hhv]
    exact getTypedSlice_congr (toConstrainedTileIndex_toNat ld.zat esize) ht hidx.symm _ ld.hv
  have hresult : maskWithSinglePredicate (namedSlice (ld1 s ld esize) ld esize)
      (dramGetVectorAsZaEndian m s.dram (typedBaseAddr s ld esize) esize) esize
      (getPredicateRegister s ld.pg) =
        dramGetVectorAsZaEndian m s.dram (typedBaseAddr s ld esize) esize := by
    rw [namedSlice_ld1, maskWithSinglePredicate_merged]
  calc (st1 (ld1 s ld esize) st esize).dram
      = (dramSetVectorAsDramEndian (ld1 s ld esize) (typedBaseAddr (ld1 s ld esize) st esize)
          (maskWithSinglePredicate (namedSlice (ld1 s ld esize) st esize)
            (dramGetVectorAsZaEndian m s.dram (typedBaseAddr (ld1 s ld esize) st esize) esize)
            esize (getPredicateRegister (ld1 s ld esize) st.pg)) esize).dram := rfl
    _ = (dramSetVectorAsDramEndian (ld1 s ld esize) (typedBaseAddr s ld esize)
          (dramGetVectorAsZaEndian m s.dram (typedBaseAddr s ld esize) esize) esize).dram := by
        rw [hsame, haddr, hmask, hresult]
    _ = s.dram := dramSetVector_dramGetVector (ld1 s ld esize) _ esize true

end RoundTrip

/-- `ST1` then `LD1` under one predicate and one address moves the active
elements and zeroes the others; `LD1` then `ST1` of one slice leaves DRAM as
it was. -/
theorem st1_ld1_roundtrip (fp : FpFunctions) (esize : ElementSize) (s : State m)
    (st ld : Inputs m) (hpg : getPredicateRegister s ld.pg = getPredicateRegister s st.pg)
    (hrn : get64BitGPR s ld.rn true = get64BitGPR s st.rn true)
    (hrm : get64BitGPR s ld.rm = get64BitGPR s st.rm) :
    (∀ i < m.dim esize,
      getElementInVectorFromLSB
          (namedSlice (exec fp (.ld1 esize) ld (exec fp (.st1 esize) st s)) ld esize) i esize.bits =
        if isActivated (getPredicateRegister s st.pg) i esize.bits then
          getElementInVectorFromLSB (namedSlice s st esize) i esize.bits
        else 0) ∧
    (sliceName s ld esize = sliceName s st esize →
      (exec fp (.st1 esize) st (exec fp (.ld1 esize) ld s)).dram = s.dram) := by
  constructor
  · intro i hi
    rw [isActivated_eq]
    exact namedSlice_ld1_st1 s hpg hrn hrm ⟨i, hi⟩
  · exact dram_st1_ld1 s hpg hrn hrm

/-- From a vertical slice to a horizontal one, on little endian DRAM. -/
theorem st1_ld1_roundtrip_word :
    let s : State smeDramLE :=
      { (default : State smeDramLE) with
        za := fun addr => addr.setWidth 8, pRegs := fun _ => 0xFFF0 }
    let st : Inputs smeDramLE := { (default : Inputs smeDramLE) with hv := true, zat := 3 }
    let ld : Inputs smeDramLE := { (default : Inputs smeDramLE) with imm := 2 }
    getElementInVectorFromLSB
        (namedSlice (ld1 (st1 s st .word) ld .word) ld .word) 3 32 =
      getElementInVectorFromLSB (namedSlice s st .word) 3 32 := by
  intro s st ld
  have h := (st1_ld1_roundtrip default .word s st ld rfl rfl rfl).1 3 (by decide)
  rwa [if_pos (by decide)] at h

end ArmSmeIla
