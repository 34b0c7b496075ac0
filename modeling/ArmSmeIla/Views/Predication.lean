import ArmSmeIla.Views.CombineMatrix
import ArmSmeIla.Views.DramBlock
import ArmSmeIla.Views.TypedSlices

/-!
# Predication as a relation between two runs

Two predicates are the same at an element size when their governing bits are,
and two vectors are the same under a predicate when their active elements are.
Each predicated helper maps operands that are the same in this sense to equal
results; nothing else about inactive elements and other bits can matter.
-/

namespace ArmSmeIla

open Packing Lines

variable {m : ArmSme} {esize : ElementSize}

/-- Equal governing bits: bit `i * (g / 8)` for element `i` of `g` bits. -/
def SamePredicate (g : ℕ) (p p' : BitVec m.pRegWidth) : Prop :=
  ∀ i < m.svl / g, p.getLsbD (i * (g / 8)) = p'.getLsbD (i * (g / 8))

/-- Equal active elements. -/
def SameActive (g : ℕ) (p : BitVec m.pRegWidth) (v v' : BitVec m.svl) : Prop :=
  ∀ i < m.svl / g, p.getLsbD (i * (g / 8)) = true → elem v i g = elem v' i g

/-! ## One vector -/

section Masks

variable {p p' : BitVec m.pRegWidth} {source source' dest dest' : BitVec m.svl}

theorem maskWithSinglePredicate_same (hp : SamePredicate esize.bits p p')
    (hsource : SameActive esize.bits p source source') {isZeroMode : Bool}
    (hdest : isZeroMode = true ∨ dest = dest') :
    maskWithSinglePredicate source dest esize p isZeroMode =
      maskWithSinglePredicate source' dest' esize p' isZeroMode := by
  apply lanes_injective esize
  funext i
  have hbit : p.getLsbD (i * esize.bytes) = p'.getLsbD (i * esize.bytes) := hp i i.isLt
  rw [lanes_maskWithSinglePredicate, lanes_maskWithSinglePredicate, ← hbit]
  refine ite_congr rfl (hsource i i.isLt) fun _ => ?_
  rcases hdest with rfl | rfl
  · rfl
  · rfl

/-- A predicate bit is read as a one-bit vector. -/
theorem getPredBitFromLSB_same {g : ℕ} (hp : SamePredicate g p p') {i : ℕ} (hi : i < m.svl / g) :
    getPredBitFromLSB p i g = getPredBitFromLSB p' i g := by
  apply BitVec.eq_of_getLsbD_eq
  intro j hj
  obtain rfl : j = 0 := by omega
  simp only [getPredBitFromLSB, BitVec.getLsbD_extractLsb', Nat.add_zero, hp i hi]

theorem isAnyPredActive_same (hp : SamePredicate esize.bits p p') :
    isAnyPredActive p esize = isAnyPredActive p' esize := by
  unfold isAnyPredActive
  rw [getPredBitFromLSB_same hp (m.dim_pos esize)]
  apply List.foldl_ext
  intro bit i hi
  have hlt : i < m.dim esize := by
    rw [List.mem_range'_1] at hi
    omega
  rw [getPredBitFromLSB_same hp hlt]

end Masks

/-! ## Whole tiles -/

section Tiles

variable {pn pn' pm pm' : BitVec m.pRegWidth} {vec1 vec1' vec2 vec2' : BitVec m.svl}

/-- A destination element faces `n` source elements of an `n`-th of its size. -/
theorem svl_div_bits_div {n : ℕ} (hn : n ∣ esize.bits) (hpos : 0 < n) :
    m.svl / (esize.bits / n) = n * m.dim esize := by
  obtain ⟨g, hg⟩ := hn
  have hbits := esize.bits_pos
  have hgpos : 0 < g := Nat.pos_of_mul_pos_left (hg ▸ hbits)
  rw [hg, Nat.mul_div_cancel_left _ hpos, ← m.dim_mul_bits esize, hg,
    ← Nat.mul_assoc, Nat.mul_div_cancel _ hgpos, Nat.mul_comm]

theorem integerDelta_same (hn : 4 ∣ esize.bits) (hpn : SamePredicate (esize.bits / 4) pn pn')
    (hpm : SamePredicate (esize.bits / 4) pm pm')
    (hvec1 : SameActive (esize.bits / 4) pn vec1 vec1')
    (hvec2 : SameActive (esize.bits / 4) pm vec2 vec2')
    (subInsteadOfAdd op1Unsigned op2Unsigned : Bool) (r c : SliceIdx m esize) :
    integerDelta vec1 vec2 pn pm esize subInsteadOfAdd op1Unsigned op2Unsigned r c =
      integerDelta vec1' vec2' pn' pm' esize subInsteadOfAdd op1Unsigned op2Unsigned r c := by
  have hlt : ∀ (i : SliceIdx m esize), ∀ k ∈ List.range 4,
      4 * (i : ℕ) + k < m.svl / (esize.bits / 4) := by
    intro i k hk
    have hk' := List.mem_range.mp hk
    have hi := i.isLt
    rw [svl_div_bits_div hn (by decide)]
    omega
  unfold integerDelta
  apply List.foldl_ext
  intro delta k hk
  have hr := hpn _ (hlt r k hk)
  have hc := hpm _ (hlt c k hk)
  simp only [isActivated_eq, getElementInVectorFromLSB_eq, ← hr, ← hc]
  refine ite_congr rfl (fun hactive => ?_) fun _ => rfl
  rw [Bool.and_eq_true] at hactive
  rw [hvec1 _ (hlt r k hk) hactive.1, hvec2 _ (hlt c k hk) hactive.2]

theorem wideningOperand_same {srcEsize : ElementSize} {p p' : BitVec m.pRegWidth}
    {vec vec' : BitVec m.svl} (hp : SamePredicate srcEsize.bits p p')
    (hvec : SameActive srcEsize.bits p vec vec') (fpzero : BitVec srcEsize.bits)
    (negFn : BitVec srcEsize.bits → BitVec srcEsize.bits) {i : ℕ}
    (hi : i < m.svl / srcEsize.bits) :
    wideningOperand vec p srcEsize fpzero negFn i =
      wideningOperand vec' p' srcEsize fpzero negFn i := by
  have hbit : p.getLsbD (i * srcEsize.bytes) = p'.getLsbD (i * srcEsize.bytes) := hp i hi
  unfold wideningOperand
  rw [← hbit]
  exact ite_congr rfl (fun h => congrArg negFn (hvec i hi h)) fun _ => rfl

/-- Two updates of one tile with the same matrix agree wherever the memories
did, and so on all of the tile if they agreed there. -/
theorem za_same_of_tiles {za za' new new' : ZaMem m} {t : TileIdx esize}
    {A A' : Matrix (SliceIdx m esize) (SliceIdx m esize) (BitVec esize.bits)}
    (h : tiles esize new = Function.update (tiles esize za) t A)
    (h' : tiles esize new' = Function.update (tiles esize za') t A') (hA : A = A')
    {addr : BitVec m.zaAddrWidth} (hza : za addr = za' addr) : new addr = new' addr := by
  subst hA
  obtain ⟨t', r, c, i, rfl⟩ := exists_byteOf esize addr
  rw [← elem_tiles new, ← elem_tiles new', h, h']
  by_cases ht : t' = t
  · subst ht
    rw [Function.update_self, Function.update_self]
  · rw [Function.update_of_ne ht, Function.update_of_ne ht, elem_tiles, elem_tiles, hza]

/-- Entries under two masks: the active ones are the same, and so are the others. -/
theorem activeEntries_same (hpn : SamePredicate esize.bits pn pn')
    (hpm : SamePredicate esize.bits pm pm')
    {active active' inactive inactive' : SliceIdx m esize → SliceIdx m esize → BitVec esize.bits}
    (hactive : ∀ r c : SliceIdx m esize, pn.getLsbD (r * esize.bytes) = true →
      pm.getLsbD (c * esize.bytes) = true → active r c = active' r c)
    (hinactive : ∀ r c, inactive r c = inactive' r c) :
    (Matrix.of fun r c : SliceIdx m esize =>
        if pn.getLsbD (r * esize.bytes) && pm.getLsbD (c * esize.bytes) then active r c
        else inactive r c) =
      Matrix.of fun r c : SliceIdx m esize =>
        if pn'.getLsbD (r * esize.bytes) && pm'.getLsbD (c * esize.bytes) then active' r c
        else inactive' r c := by
  apply Matrix.ext
  intro r c
  have hr : pn.getLsbD (r * esize.bytes) = pn'.getLsbD (r * esize.bytes) := hpn r r.isLt
  have hc : pm.getLsbD (c * esize.bytes) = pm'.getLsbD (c * esize.bytes) := hpm c c.isLt
  simp only [Matrix.of_apply, ← hr, ← hc]
  refine ite_congr rfl (fun h => ?_) fun _ => hinactive r c
  rw [Bool.and_eq_true] at h
  exact hactive r c h.1 h.2

section Combine

variable {b : ℕ} {tileIdx : BitVec b} {t : TileIdx esize} (ht : tileIdx.toNat = t)
  {za za' : ZaMem m} (htile : tiles esize za t = tiles esize za' t)
  {addr : BitVec m.zaAddrWidth} (hza : za addr = za' addr)

include ht htile hza

theorem combineTileWithHorizontalVector_same (hpn : SamePredicate esize.bits pn pn')
    (hpm : SamePredicate esize.bits pm pm') (hvec : SameActive esize.bits pm vec1 vec1')
    (isZeroMode : Bool) (combineFn : BitVec esize.bits → BitVec esize.bits → BitVec esize.bits) :
    combineTileWithHorizontalVector za tileIdx vec1 pn pm esize isZeroMode combineFn addr =
      combineTileWithHorizontalVector za' tileIdx vec1' pn' pm' esize isZeroMode combineFn
        addr := by
  refine za_same_of_tiles (tiles_combineTileWithHorizontalVector ht za _ _ _ _ _)
    (tiles_combineTileWithHorizontalVector ht za' _ _ _ _ _) ?_ hza
  rw [htile]
  refine activeEntries_same hpn hpm (fun r c _ hc => ?_) fun _ _ => rfl
  exact congrArg (combineFn _) (hvec c c.isLt hc)

theorem combineTileWithVerticalVector_same (hpn : SamePredicate esize.bits pn pn')
    (hpm : SamePredicate esize.bits pm pm') (hvec : SameActive esize.bits pn vec1 vec1')
    (isZeroMode : Bool) (combineFn : BitVec esize.bits → BitVec esize.bits → BitVec esize.bits) :
    combineTileWithVerticalVector za tileIdx vec1 pn pm esize isZeroMode combineFn addr =
      combineTileWithVerticalVector za' tileIdx vec1' pn' pm' esize isZeroMode combineFn
        addr := by
  refine za_same_of_tiles (tiles_combineTileWithVerticalVector ht za _ _ _ _ _)
    (tiles_combineTileWithVerticalVector ht za' _ _ _ _ _) ?_ hza
  rw [htile]
  refine activeEntries_same hpn hpm (fun r c hr _ => ?_) fun _ _ => rfl
  exact congrArg (combineFn _) (hvec r r.isLt hr)

theorem integerCombineTileWithMatrices_same (hn : 4 ∣ esize.bits)
    (hpn : SamePredicate (esize.bits / 4) pn pn') (hpm : SamePredicate (esize.bits / 4) pm pm')
    (hvec1 : SameActive (esize.bits / 4) pn vec1 vec1')
    (hvec2 : SameActive (esize.bits / 4) pm vec2 vec2')
    (subInsteadOfAdd op1Unsigned op2Unsigned : Bool) :
    integerCombineTileWithMatrices za tileIdx vec1 vec2 pn pm esize subInsteadOfAdd op1Unsigned
        op2Unsigned addr =
      integerCombineTileWithMatrices za' tileIdx vec1' vec2' pn' pm' esize subInsteadOfAdd
        op1Unsigned op2Unsigned addr := by
  refine za_same_of_tiles (tiles_integerCombineTileWithMatrices ht za _ _ _ _ _ _ _)
    (tiles_integerCombineTileWithMatrices ht za' _ _ _ _ _ _ _) ?_ hza
  rw [htile]
  congr 1
  apply Matrix.ext
  intro r c
  exact integerDelta_same hn hpn hpm hvec1 hvec2 subInsteadOfAdd op1Unsigned op2Unsigned r c

theorem floatCombineTileWithMatricesK1_same (hpn : SamePredicate esize.bits pn pn')
    (hpm : SamePredicate esize.bits pm pm') (hvec1 : SameActive esize.bits pn vec1 vec1')
    (hvec2 : SameActive esize.bits pm vec2 vec2') (subInsteadOfAdd : Bool)
    (negFn : BitVec esize.bits → BitVec esize.bits)
    (fmacFn : BitVec esize.bits → BitVec esize.bits → BitVec esize.bits → BitVec esize.bits) :
    floatCombineTileWithMatricesK1 za tileIdx vec1 vec2 pn pm esize subInsteadOfAdd negFn fmacFn
        addr =
      floatCombineTileWithMatricesK1 za' tileIdx vec1' vec2' pn' pm' esize subInsteadOfAdd negFn
        fmacFn addr := by
  refine za_same_of_tiles (tiles_floatCombineTileWithMatricesK1 ht za _ _ _ _ _ _ _)
    (tiles_floatCombineTileWithMatricesK1 ht za' _ _ _ _ _ _ _) ?_ hza
  rw [htile]
  refine activeEntries_same hpn hpm (fun r c hr hc => ?_) fun _ _ => rfl
  have hop1 : lanes esize vec1 r = lanes esize vec1' r := hvec1 r r.isLt hr
  have hop2 : lanes esize vec2 c = lanes esize vec2' c := hvec2 c c.isLt hc
  rw [hop1, hop2]

theorem floatCombineTileWithMatricesK2_same {srcEsize : ElementSize}
    (hhalf : srcEsize.bits = esize.bits / 2) (hn : 2 ∣ esize.bits)
    (hpn : SamePredicate srcEsize.bits pn pn') (hpm : SamePredicate srcEsize.bits pm pm')
    (hvec1 : SameActive srcEsize.bits pn vec1 vec1')
    (hvec2 : SameActive srcEsize.bits pm vec2 vec2') (subInsteadOfAdd : Bool)
    (fpzero : BitVec srcEsize.bits) (negFn : BitVec srcEsize.bits → BitVec srcEsize.bits)
    (dotaddFn : BitVec esize.bits → BitVec srcEsize.bits → BitVec srcEsize.bits →
      BitVec srcEsize.bits → BitVec srcEsize.bits → BitVec esize.bits) :
    floatCombineTileWithMatricesK2 za tileIdx vec1 vec2 pn pm esize srcEsize subInsteadOfAdd
        fpzero negFn dotaddFn addr =
      floatCombineTileWithMatricesK2 za' tileIdx vec1' vec2' pn' pm' esize srcEsize
        subInsteadOfAdd fpzero negFn dotaddFn addr := by
  refine za_same_of_tiles (tiles_floatCombineTileWithMatricesK2 ht za _ _ _ _ _ _ _ _)
    (tiles_floatCombineTileWithMatricesK2 ht za' _ _ _ _ _ _ _ _) ?_ hza
  have hlt : ∀ (i : SliceIdx m esize), ∀ k < 2, 2 * (i : ℕ) + k < m.svl / srcEsize.bits := by
    intro i k hk
    have hi := i.isLt
    rw [hhalf, svl_div_bits_div hn (by decide)]
    omega
  have hlt0 : ∀ i : SliceIdx m esize, 2 * (i : ℕ) < m.svl / srcEsize.bits := fun i =>
    hlt i 0 (by decide)
  have hlt1 : ∀ i : SliceIdx m esize, 2 * (i : ℕ) + 1 < m.svl / srcEsize.bits := fun i =>
    hlt i 1 (by decide)
  apply Matrix.ext
  intro r c
  have hrow : ∀ i < m.svl / srcEsize.bits,
      pn.getLsbD (i * srcEsize.bytes) = pn'.getLsbD (i * srcEsize.bytes) := hpn
  have hcol : ∀ i < m.svl / srcEsize.bits,
      pm.getLsbD (i * srcEsize.bytes) = pm'.getLsbD (i * srcEsize.bytes) := hpm
  simp only [Matrix.of_apply, ← htile, ← hrow _ (hlt0 r), ← hrow _ (hlt1 r), ← hcol _ (hlt0 c),
    ← hcol _ (hlt1 c), wideningOperand_same hpn hvec1 fpzero _ (hlt0 r),
    wideningOperand_same hpn hvec1 fpzero _ (hlt1 r),
    wideningOperand_same hpm hvec2 fpzero _ (hlt0 c),
    wideningOperand_same hpm hvec2 fpzero _ (hlt1 c)]

end Combine

end Tiles

/-! ## Slices and DRAM -/

/-- Writing the same data to the same slice. -/
theorem updateSingleTypedSlice_same {a b : ℕ} {tileIdx : BitVec b} {t : TileIdx esize}
    (ht : tileIdx.toNat = t) {za za' : ZaMem m} (isVertical : Bool) (sliceIdx : BitVec a)
    (data : BitVec m.svl) {addr : BitVec m.zaAddrWidth} (hza : za addr = za' addr) :
    updateSingleTypedSlice za isVertical tileIdx sliceIdx esize data addr =
      updateSingleTypedSlice za' isVertical tileIdx sliceIdx esize data addr := by
  obtain ⟨t', r, c, i, rfl⟩ := exists_byteOf esize addr
  rw [updateSingleTypedSlice_byteOf ht, updateSingleTypedSlice_byteOf ht, hza]

/-- Equal bytes in the active elements of a block. -/
def SameMemory (m : ArmSme) (esize : ElementSize) (p : BitVec m.pRegWidth) (base : BitVec 128)
    (dram dram' : DramMem) : Prop :=
  ∀ i < m.dim esize, p.getLsbD (i * esize.bytes) = true → ∀ b < esize.bytes,
    dram (blockAddr base (i * esize.bytes + b)) = dram' (blockAddr base (i * esize.bytes + b))

theorem dramGetVector_same {p : BitVec m.pRegWidth} {base : BitVec 128} {dram dram' : DramMem}
    (h : SameMemory m esize p base dram dram') (convertEndianness : Bool) :
    SameActive esize.bits p (dramGetVectorAsZaEndian m dram base esize convertEndianness)
      (dramGetVectorAsZaEndian m dram' base esize convertEndianness) := by
  intro i hi hactive
  apply ext_elem esize.bits_eq
  intro b hb
  have hread := fun dram => elem_dramGetVectorAsZaEndian dram base
    convertEndianness (⟨i, hi⟩ : SliceIdx m esize) ⟨b, hb⟩
  exact (hread dram).trans ((h i hi hactive _ (memByte_lt _ hb)).trans (hread dram').symm)

section Store

variable (s s' : State m) (base : BitVec 128) (vector : BitVec m.svl) (convertEndianness : Bool)

theorem dramSetVector_same {addr : BitVec 128} (hdram : s.dram addr = s'.dram addr) :
    (dramSetVectorAsDramEndian s base vector esize convertEndianness).dram addr =
      (dramSetVectorAsDramEndian s' base vector esize convertEndianness).dram addr := by
  by_cases h : InBlock m base addr
  · rcases (inBlock_iff_laneByteAddr esize convertEndianness base addr).mp h with ⟨i, b, rfl⟩
    rw [dramSetVector_laneByteAddr, dramSetVector_laneByteAddr]
  · rw [dramSetVector_outside s base vector esize convertEndianness h,
      dramSetVector_outside s' base vector esize convertEndianness h, hdram]

/-- What a store captures does not depend on the old contents of DRAM. -/
theorem wbSvlVector_same :
    (dramSetVectorAsDramEndian s base vector esize convertEndianness).wbSvlVector =
      (dramSetVectorAsDramEndian s' base vector esize convertEndianness).wbSvlVector := by
  apply lanes_injective esize
  funext i
  have hmirror := fun s : State m => lanes_wbSvlVector s base vector esize convertEndianness
    ⟨m.dim esize - 1 - i, by have := i.isLt; omega⟩
  have hi : m.dim esize - 1 - (m.dim esize - 1 - (i : ℕ)) = i := by
    have := i.isLt
    omega
  simp only [hi] at hmirror
  exact (hmirror s).trans (hmirror s').symm

end Store

end ArmSmeIla
