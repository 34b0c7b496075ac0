import ArmSmeIla.Views.CombineMatrix
import ArmSmeIla.Views.TypedSlices

/-!
# Updates of one tile

What an accumulating instruction promises, in the terms of a reader of ZA: each
element of one tile, read through the horizontal slices, is a function of its
old value and its two indices, and no byte outside the tile changes.
-/

namespace ArmSmeIla

open Packing Lines

variable {m : ArmSme} {esize : ElementSize}

/-- Element `(r, c)` of tile `t`: element `c` of the horizontal slice `r`. -/
def tileElem (za : ZaMem m) (t : TileIdx esize) (r c : ℕ) : BitVec esize.bits :=
  getElementInVectorFromLSB
    (getTypedHorizontalSlice za (BitVec.ofNat m.zaAddrWidth r) (BitVec.ofNat m.zaAddrWidth t)
      esize) c esize.bits

theorem tileElem_eq (za : ZaMem m) (t : TileIdx esize) (r c : SliceIdx m esize) :
    tileElem za t r c = tiles esize za t r c := by
  have hrow := congrFun (lanes_readHorizontalSlice (tileIdx_toNat m t) za r) c
  exact hrow

/-- `za'` is `za` with every element of tile `t` replaced through `f`. -/
structure TileUpdated (esize : ElementSize) (t : TileIdx esize) (za za' : ZaMem m)
    (f : ℕ → ℕ → BitVec esize.bits → BitVec esize.bits) : Prop where
  elements : ∀ r < m.dim esize, ∀ c < m.dim esize,
    tileElem za' t r c = f r c (tileElem za t r c)
  outside : ∀ addr, (∀ k, ¬ InSlice esize false t k addr) → za' addr = za addr

theorem TileUpdated.of_tiles {t : TileIdx esize} {za za' : ZaMem m}
    {f : ℕ → ℕ → BitVec esize.bits → BitVec esize.bits}
    (h : tiles esize za' = Function.update (tiles esize za) t
      (Matrix.of fun r c => f r c (tiles esize za t r c))) : TileUpdated esize t za za' f where
  elements := by
    intro r hr c hc
    have hnew := tileElem_eq za' t ⟨r, hr⟩ ⟨c, hc⟩
    have hold := tileElem_eq za t ⟨r, hr⟩ ⟨c, hc⟩
    rw [h, Function.update_self] at hnew
    rw [hold]
    exact hnew
  outside := by
    intro addr hout
    rcases exists_byteOf esize addr with ⟨t', r, c, i, rfl⟩
    have hne : t' ≠ t := by
      rintro rfl
      exact hout r ((inSlice_byteOf false t' t' r r c i).mpr ⟨rfl, rfl⟩)
    rw [← elem_tiles za', ← elem_tiles za, h, Function.update_of_ne hne]

end ArmSmeIla
