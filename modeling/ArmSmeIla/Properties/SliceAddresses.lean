import ArmSmeIla.Properties.Tracking

/-!
# The addresses of a slice

`GetSliceAddresses` against the slice accessors, and what `cstr_step_slice`
makes of it. The assertion of the source asks for an even number of elements;
a slice of one element never gets past it, although the next lines treat that
case apart.
-/

namespace ArmSmeIla

open Packing

variable {m : ArmSme} {esize : ElementSize}

/-! ## The list -/

/-- The addresses that are returned when the assertion holds. -/
def sliceAddresses (isVertical : Bool) (t : TileIdx esize) (k : SliceIdx m esize) : List ℕ :=
  if isVertical then
    (List.range (m.dim esize)).flatMap fun i => (List.range esize.bytes).map fun b =>
      tileRow esize t i * m.svlB + tileCol m esize k + b
  else
    (List.range m.svlB).map fun col => tileRow esize t k * m.svlB + col

theorem odd_dim_iff (m : ArmSme) (esize : ElementSize) : m.dim esize % 2 ≠ 0 ↔ m.dim esize = 1 := by
  rcases m.dim_eq_pow esize with ⟨j, hdim, _⟩
  rw [hdim]
  cases j with
  | zero => decide
  | succ j =>
      have hpos := Nat.two_pow_pos j
      rw [pow_succ]
      omega

theorem getSliceAddresses_eq (call : SliceCall m) :
    getSliceAddresses m call.tileIdx call.sliceIdx call.isVertical call.esize =
      if m.dim call.esize = 1 then none
      else some (sliceAddresses call.isVertical call.tile call.slice) := by
  unfold getSliceAddresses sliceAddresses
  rw [call.slice_val]
  simp only [odd_dim_iff, (tileIdx_ofNat_toNat call).1, m.numTiles_eq]
  refine ite_congr rfl (fun _ => rfl) fun _ => ?_
  cases call.isVertical <;> rfl

section List

variable (isVertical : Bool) (t : TileIdx esize) (k : SliceIdx m esize)

theorem length_sliceAddresses : (sliceAddresses isVertical t k).length = m.svlB := by
  unfold sliceAddresses
  cases isVertical with
  | false => simp
  | true => simp [List.length_flatMap]

theorem nodup_sliceAddresses : (sliceAddresses isVertical t k).Nodup := by
  unfold sliceAddresses
  cases isVertical with
  | false => exact List.nodup_range.map fun _ _ h => Nat.add_left_cancel h
  | true =>
      simp only [if_true, List.nodup_flatMap]
      refine ⟨fun i _ => List.nodup_range.map fun _ _ h => Nat.add_left_cancel h, ?_⟩
      refine List.nodup_range.imp_of_mem ?_
      intro i i' hi hi' hne addr h h'
      rcases List.mem_map.mp h with ⟨b, hb, rfl⟩
      rcases List.mem_map.mp h' with ⟨b', hb', heq⟩
      have hcol := tileCol_lt k.isLt (List.mem_range.mp hb)
      have hcol' := tileCol_lt k.isLt (List.mem_range.mp hb')
      rw [Nat.add_assoc, Nat.add_assoc] at heq
      -- two rows of the tile
      have hrow := (offset_inj hcol' hcol heq).1
      exact hne (tileRow_inj t.isLt t.isLt hrow.symm).2

/-- The list holds the addresses of the slice's bytes. -/
theorem mem_sliceAddresses (addr : ℕ) :
    addr ∈ sliceAddresses isVertical t k ↔
      ∃ a : BitVec m.zaAddrWidth, a.toNat = addr ∧ InSlice esize isVertical t k a := by
  unfold sliceAddresses
  cases isVertical with
  | false =>
      rw [if_neg Bool.false_ne_true, List.mem_map]
      constructor
      · rintro ⟨col, hmem, rfl⟩
        have hcol := List.mem_range.mp hmem
        have haddr := byteAddr_toNat (tileRow_lt t.isLt k.isLt) hcol
        refine ⟨_, haddr, ?_⟩
        rw [InSlice, if_neg Bool.false_ne_true, haddr, offset_div hcol]
        rfl
      · rintro ⟨a, rfl, hin⟩
        rw [InSlice, if_neg Bool.false_ne_true] at hin
        refine ⟨a.toNat % m.svlB, List.mem_range.mpr (Nat.mod_lt _ m.svlB_pos), ?_⟩
        rw [tileRow, ← hin, Nat.div_add_mod']
  | true =>
      simp only [if_true, List.mem_flatMap, List.mem_map, List.mem_range]
      constructor
      · rintro ⟨i, hi, b, hb, rfl⟩
        have hbyte : esize.bytes - 1 - b < esize.bytes := by omega
        refine ⟨byteOf t ⟨i, hi⟩ k ⟨_, hbyte⟩, ?_, (inSlice_byteOf true t t k _ k _).mpr ⟨rfl, rfl⟩⟩
        have hmirror : esize.bytes - 1 - (esize.bytes - 1 - b) = b := by omega
        rw [byteOf, tileByteAddr, hmirror, byteAddr_toNat (tileRow_lt t.isLt hi)
          (tileCol_lt k.isLt hb), Nat.add_assoc]
      · rintro ⟨a, rfl, hin⟩
        rcases (inSlice_iff_sliceByte ..).mp hin with ⟨j, i, rfl⟩
        have hb : esize.bytes - 1 - (i : ℕ) < esize.bytes := by omega
        refine ⟨j, j.isLt, _, hb, ?_⟩
        rw [sliceByte, if_pos rfl, byteOf, tileByteAddr, byteAddr_toNat (tileRow_lt t.isLt j.isLt)
          (tileCol_lt k.isLt hb), Nat.add_assoc]

end List

/-! ## The accessors and the constraints -/

/-- The listed addresses are those a read of the slice depends on and those a
write of the slice can change, each listed once. -/
structure ExactAddresses (call : SliceCall m) (addresses : List ℕ) : Prop where
  length : addresses.length = m.svlB
  nodup : addresses.Nodup
  read : ∀ addr, addr ∈ addresses ↔ ∃ a : BitVec m.zaAddrWidth, a.toNat = addr ∧
    ∃ (za : ZaMem m) (x : BitVec 8), call.get (Function.update za a x) ≠ call.get za
  written : ∀ addr, addr ∈ addresses ↔ ∃ a : BitVec m.zaAddrWidth, a.toNat = addr ∧
    ∃ (za : ZaMem m) (value : BitVec m.svl),
      SliceCall.set za { call with valueExpr := value } a ≠ za a

theorem exactAddresses (call : SliceCall m) :
    ExactAddresses call (sliceAddresses call.isVertical call.tile call.slice) where
  length := length_sliceAddresses ..
  nodup := nodup_sliceAddresses ..
  read := by
    intro addr
    rw [mem_sliceAddresses]
    refine exists_congr fun a => and_congr_right fun _ => ?_
    simp only [call.get_eq]
    exact inSlice_iff_read call.tile_toNat call.isVertical _ a
  written := by
    intro addr
    rw [mem_sliceAddresses]
    refine exists_congr fun a => and_congr_right fun _ => ?_
    exact inSlice_iff_written call.tile_toNat call.isVertical _ a

/-- A slice set on an all-zero ZA is zero elsewhere, and reads back. -/
theorem eq_set_zero_iff (call : SliceCall m) (za : ZaMem m) :
    za = call.set (fun _ => 0) ↔
      (∀ a, ¬InSlice call.esize call.isVertical call.tile call.slice a → za a = 0) ∧
        call.get za = call.valueExpr := by
  constructor
  · rintro rfl
    refine ⟨fun a hout => ?_, call.get_set _⟩
    exact updateSingleTypedSlice_outside call.tile_toNat _ call.isVertical _ _ hout
  · rintro ⟨hzero, hread⟩
    funext a
    rw [call.set_eq]
    by_cases hin : InSlice call.esize call.isVertical call.tile call.slice a
    · rcases (inSlice_iff_sliceByte ..).mp hin with ⟨j, i, rfl⟩
      refine Eq.trans ?_ (updateSingleTypedSlice_sliceByte call.tile_toNat _ call.isVertical _ _ j
        i).symm
      rw [← hread, call.get_eq]
      exact (elem_getTypedSlice call.tile_toNat za call.isVertical _ j i).symm
    · rw [hzero a hin]
      exact (updateSingleTypedSlice_outside call.tile_toNat (fun _ => 0) call.isVertical _ _
        hin).symm

/-- The constraints of a slice that is not a single element have one solution. -/
theorem cstrStepSlice_exact (call : SliceCall m) (hdim : m.dim call.esize ≠ 1) :
    ∃ constraints, cstrStepSlice call.valueExpr call.tileIdx call.sliceIdx call.isVertical
        call.esize = some constraints ∧
      ∀ za : ZaMem m, (∀ c ∈ constraints, c za = true) ↔ za = call.set fun _ => 0 := by
  unfold cstrStepSlice
  rw [getSliceAddresses_eq, if_neg hdim]
  refine ⟨_, rfl, fun za => ?_⟩
  rw [eq_set_zero_iff]
  constructor
  · intro hsat
    constructor
    · intro a hout
      have hlt := zaAddr_toNat_lt a
      have huntouched : a.toNat ∉ sliceAddresses call.isVertical call.tile call.slice := by
        rw [mem_sliceAddresses]
        rintro ⟨a', ha', hin⟩
        exact hout (BitVec.eq_of_toNat_eq ha' ▸ hin)
      have hbyte := hsat _ (List.mem_append_left _ (List.mem_map_of_mem (List.mem_filter.mpr
        ⟨List.mem_range.mpr hlt, by simpa using huntouched⟩)))
      rw [BitVec.ofNat_toNat, BitVec.setWidth_eq] at hbyte
      exact eq_of_beq hbyte
    · exact eq_of_beq (hsat _ (List.mem_append_right _ (List.mem_singleton_self _)))
  · rintro ⟨hzero, hread⟩ c hc
    rcases List.mem_append.mp hc with hc | hc
    · rcases List.mem_map.mp hc with ⟨addr, haddr, rfl⟩
      rcases List.mem_filter.mp haddr with ⟨hmem, huntouched⟩
      have hlt : addr < 2 ^ m.zaAddrWidth := by
        rw [m.two_pow_zaAddrWidth]
        exact List.mem_range.mp hmem
      refine beq_of_eq (hzero _ fun hin => ?_)
      have htouched : addr ∈ sliceAddresses call.isVertical call.tile call.slice :=
        (mem_sliceAddresses ..).mpr ⟨BitVec.ofNat m.zaAddrWidth addr, Nat.mod_eq_of_lt hlt, hin⟩
      simp [htouched] at huntouched
    · rw [List.mem_singleton.mp hc]
      exact beq_of_eq hread

theorem dim_eq_one_iff (m : ArmSme) (esize : ElementSize) :
    m.dim esize = 1 ↔ m.svl = esize.bits := by
  have hpos := esize.bits_pos
  rw [← m.dim_mul_bits esize]
  constructor
  · intro h
    rw [h, Nat.one_mul]
  · intro h
    exact Nat.eq_of_mul_eq_mul_right hpos (h.trans (Nat.one_mul _).symm)

/-- The call returns, its addresses are the slice's, and the constraints leave
the all-zero ZA with that slice set. -/
def NamesSlice (call : SliceCall m) : Prop :=
  ∃ addresses, getSliceAddresses m call.tileIdx call.sliceIdx call.isVertical call.esize =
      some addresses ∧ ExactAddresses call addresses ∧
    ∃ constraints, cstrStepSlice call.valueExpr call.tileIdx call.sliceIdx call.isVertical
        call.esize = some constraints ∧
      ∀ za : ZaMem m, (∀ c ∈ constraints, c za = true) ↔ za = call.set fun _ => 0

/-- The assertion rejects exactly the slices of one element. -/
theorem namesSlice_iff (m : ArmSme) (call : SliceCall m) :
    NamesSlice call ↔ m.svl ≠ call.esize.bits := by
  rw [ne_eq, ← dim_eq_one_iff]
  constructor
  · rintro ⟨addresses, hreturn, _⟩ hone
    rw [getSliceAddresses_eq, if_pos hone] at hreturn
    cases hreturn
  · intro hdim
    refine ⟨_, ?_, exactAddresses call, cstrStepSlice_exact call hdim⟩
    rw [getSliceAddresses_eq, if_neg hdim]

/-- Quadwords at the smallest `SVL`. -/
theorem not_namesSlice_quad :
    ¬NamesSlice (⟨0, 0, 0, false, .quad, by decide⟩ : SliceCall smeDramLE) := by
  rintro ⟨addresses, hreturn, _⟩
  have hassert : getSliceAddresses smeDramLE 0 0 false .quad = none := by decide
  exact absurd (hassert.symm.trans hreturn) (by simp)

end ArmSmeIla
