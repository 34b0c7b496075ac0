import ArmSmeIla.Views.CombineMatrix
import ArmSmeIla.Views.Footprints
import ArmSmeIla.Views.TypedSlices

/-!
# Moves between vectors and slices

`MOVA` in both directions under one predicate: what goes through the slice
comes back, and merging a slice into itself leaves ZA as it was.
-/

namespace ArmSmeIla

open Packing

variable {m : ArmSme} {fp : FpFunctions} {esize : ElementSize}

section RoundTrip

variable (s : State m) {v2t t2v : Inputs m} (hhv : t2v.hv = v2t.hv)
  (htile : tileOf esize t2v.zan = tileOf esize v2t.zad)
  (hslice : sliceOf m esize (sliceIdx s t2v esize) = sliceOf m esize (sliceIdx s v2t esize))

include hhv htile hslice

/-- The slice that the two instructions share, in any ZA. -/
theorem movaT2V_source (za : ZaMem m) :
    getTypedSlice za t2v.hv (toConstrainedTileIndex t2v.zan esize) (sliceIdx s t2v esize) esize =
      getTypedSlice za v2t.hv (toConstrainedTileIndex v2t.zad esize) (sliceIdx s v2t esize)
        esize := by
  have ht' : (toConstrainedTileIndex t2v.zan esize).toNat = tileOf esize v2t.zad := by
    rw [toConstrainedTileIndex_toNat, htile]
  rw [hhv]
  exact getTypedSlice_congr (toConstrainedTileIndex_toNat v2t.zad esize) ht' hslice za v2t.hv

variable (hpg : getPredicateRegister s t2v.pg = getPredicateRegister s v2t.pg)

include hpg

/-- Through the slice and back: `Zn` merged into `Zd`. -/
theorem getVectorRegister_movaT2V_movaV2T :
    getVectorRegister (movaT2V (movaV2T s v2t esize) t2v esize) t2v.zd =
      maskWithSinglePredicate (getVectorRegister s v2t.zn) (getVectorRegister s t2v.zd) esize
        (getPredicateRegister s v2t.pg) := by
  have hread := movaT2V_source s hhv htile hslice (movaV2T s v2t esize).za
  have hwritten := getTypedSlice_updateSingleTypedSlice (toConstrainedTileIndex_toNat v2t.zad esize)
    s.za v2t.hv (sliceIdx s v2t esize) (maskWithSinglePredicate (getVectorRegister s v2t.zn)
      (getTypedSlice s.za v2t.hv (toConstrainedTileIndex v2t.zad esize) (sliceIdx s v2t esize)
        esize) esize (getPredicateRegister s v2t.pg))
  show getVectorRegister (updateSingleVectorRegister (movaV2T s v2t esize) t2v.zd
    (maskWithSinglePredicate (getTypedSlice (movaV2T s v2t esize).za t2v.hv
      (toConstrainedTileIndex t2v.zan esize) (sliceIdx s t2v esize) esize)
      (getVectorRegister s t2v.zd) esize (getPredicateRegister s t2v.pg))) t2v.zd = _
  rw [getVectorRegister_updateSingleVectorRegister, hread, hpg]
  exact (congrArg (maskWithSinglePredicate · _ esize _) hwritten).trans
    (maskWithSinglePredicate_mask ..)

/-- From the slice and back into it. -/
theorem za_movaV2T_movaT2V (hreg : v2t.zn = t2v.zd) :
    (movaV2T (movaT2V s t2v esize) v2t esize).za = s.za := by
  have hread := movaT2V_source s hhv htile hslice s.za
  have hvector : getVectorRegister (movaT2V s t2v esize) v2t.zn =
      maskWithSinglePredicate (getTypedSlice s.za v2t.hv (toConstrainedTileIndex v2t.zad esize)
        (sliceIdx s v2t esize) esize) (getVectorRegister s t2v.zd) esize
        (getPredicateRegister s v2t.pg) := by
    rw [hreg, movaT2V, getVectorRegister_updateSingleVectorRegister, hread, hpg]
  show updateSingleTypedSlice s.za v2t.hv (toConstrainedTileIndex v2t.zad esize)
    (sliceIdx s v2t esize) esize (maskWithSinglePredicate
      (getVectorRegister (movaT2V s t2v esize) v2t.zn) (getTypedSlice s.za v2t.hv
        (toConstrainedTileIndex v2t.zad esize) (sliceIdx s v2t esize) esize) esize
      (getPredicateRegister s v2t.pg)) = s.za
  rw [hvector, maskWithSinglePredicate_merged]
  exact updateSingleTypedSlice_getTypedSlice (toConstrainedTileIndex_toNat v2t.zad esize) s.za
    v2t.hv (sliceIdx s v2t esize)

end RoundTrip

/-- `MOVA` into a slice reaches its active elements only. -/
theorem movaV2T_changes (s : State m) (inp : Inputs m) {addr : BitVec m.zaAddrWidth}
    (h : (movaV2T s inp esize).za addr ≠ s.za addr) :
    ∃ i : SliceIdx m esize, isActivated (getPredicateRegister s inp.pg) i esize.bits = true ∧
      ∃ b, addr = sliceByte inp.hv (tileOf esize inp.zad)
        (sliceOf m esize (sliceIdx s inp esize)) i b := by
  have ht := toConstrainedTileIndex_toNat inp.zad esize
  have hin : InSlice esize inp.hv (tileOf esize inp.zad) (sliceOf m esize (sliceIdx s inp esize))
      addr := by
    by_contra hout
    exact h (updateSingleTypedSlice_outside ht s.za inp.hv (sliceIdx s inp esize) _ hout)
  rcases (inSlice_iff_sliceByte ..).mp hin with ⟨i, b, rfl⟩
  refine ⟨i, ?_, b, rfl⟩
  by_contra hinactive
  apply h
  refine (updateSingleTypedSlice_sliceByte ht s.za inp.hv (sliceIdx s inp esize) _ i b).trans ?_
  rw [lanes_maskWithSinglePredicate_isActivated, if_neg hinactive, if_neg Bool.false_ne_true]
  exact elem_getTypedSlice ht s.za inp.hv (sliceIdx s inp esize) i b

/-- A vector moved into a slice and back under one predicate: the active
elements arrive, the others keep the destination's, and ZA changes at active
elements only. A slice moved out and back in changes nothing in ZA. -/
theorem mova_roundtrip (fp : FpFunctions) (m : ArmSme) (s : State m) (v2t t2v : Inputs m)
    (esize : ElementSize) (hhv : t2v.hv = v2t.hv)
    (htile : tileOf esize t2v.zan = tileOf esize v2t.zad)
    (hslice : sliceOf m esize (sliceIdx s t2v esize) = sliceOf m esize (sliceIdx s v2t esize))
    (hpg : getPredicateRegister s t2v.pg = getPredicateRegister s v2t.pg) :
    (∀ i < m.dim esize,
      getElementInVectorFromLSB (getVectorRegister (exec fp (.movaT2V esize) t2v
          (exec fp (.movaV2T esize) v2t s)) t2v.zd) i esize.bits =
        if isActivated (getPredicateRegister s v2t.pg) i esize.bits then
          getElementInVectorFromLSB (getVectorRegister s v2t.zn) i esize.bits
        else getElementInVectorFromLSB (getVectorRegister s t2v.zd) i esize.bits) ∧
    (∀ addr, (exec fp (.movaT2V esize) t2v (exec fp (.movaV2T esize) v2t s)).za addr ≠ s.za addr →
      ∃ i : SliceIdx m esize, isActivated (getPredicateRegister s v2t.pg) i esize.bits = true ∧
        ∃ b, addr = sliceByte v2t.hv (tileOf esize v2t.zad)
          (sliceOf m esize (sliceIdx s v2t esize)) i b) ∧
    (v2t.zn = t2v.zd →
      (exec fp (.movaV2T esize) v2t (exec fp (.movaT2V esize) t2v s)).za = s.za) := by
  refine ⟨?_, ?_, za_movaV2T_movaT2V s hhv htile hslice hpg⟩
  · intro i hi
    show elem (getVectorRegister (movaT2V (movaV2T s v2t esize) t2v esize) t2v.zd) i esize.bits = _
    rw [getVectorRegister_movaT2V_movaV2T s hhv htile hslice hpg]
    exact lanes_maskWithSinglePredicate_isActivated (getVectorRegister s v2t.zn) _ _ false ⟨i, hi⟩
  · intro addr h
    exact movaV2T_changes s v2t h

/-- Selectors 7 and 3 name one tile of words; only element 0 is active. -/
theorem mova_roundtrip_word :
    let s : State smeDramLE := { (default : State smeDramLE) with
      za := fun addr => addr.setWidth 8, zRegs := fun i => if i = 1 then -1 else 5,
      pRegs := fun _ => 0x0001 }
    let v2t : Inputs smeDramLE :=
      { (default : Inputs smeDramLE) with hv := true, zad := 7, zn := 1 }
    let t2v : Inputs smeDramLE :=
      { (default : Inputs smeDramLE) with hv := true, zan := 3, zd := 2 }
    getElementInVectorFromLSB (getVectorRegister (movaT2V (movaV2T s v2t .word) t2v .word) 2) 0 32 =
        getElementInVectorFromLSB (getVectorRegister s 1) 0 32 ∧
      (movaV2T (movaT2V s t2v .word) { v2t with zn := 2 } .word).za = s.za := by
  intro s v2t t2v
  constructor
  · have h := (mova_roundtrip default smeDramLE s v2t t2v .word rfl (by decide) rfl rfl).1 0
      (by decide)
    exact h.trans (if_pos (by decide))
  · exact (mova_roundtrip default smeDramLE s { v2t with zn := 2 } t2v .word rfl (by decide) rfl
      rfl).2.2 rfl

end ArmSmeIla
