import ArmSmeIla.Model.Instructions
import ArmSmeIla.Views.TypedSlices

/-!
# ZERO

`ZERO` clears 64-bit tiles slice by slice, but its inner loop runs over eight
slices whatever the vector length is, while a 64-bit tile has `SVL / 64` of
them. The exact effect is stated first; what is missing from the intended one
is read off from it.
-/

namespace ArmSmeIla

open Packing

variable {m : ArmSme}

/-- Row of the square that a byte is in. -/
def zaRow (addr : BitVec m.zaAddrWidth) : ℕ := addr.toNat / m.svlB

/-! ## The exact effect -/

section Effect

variable (za : ZaMem m) (t : TileIdx .double) (r c : SliceIdx m .double)
  (i : Fin ElementSize.double.bytes)

theorem zeroRow_byteOf {tileIdx rowIdx : ℕ} (ht : tileIdx < 8) (hr : rowIdx < 8) :
    zeroRow tileIdx za rowIdx (byteOf t r c i) =
      if t = tileIdx ∧ r = rowIdx % m.dim .double then 0 else za (byteOf t r c i) := by
  have hge := m.svlB_ge
  have htile : (BitVec.ofNat m.zaAddrWidth tileIdx).toNat = (⟨tileIdx, ht⟩ : TileIdx .double) :=
    Nat.mod_eq_of_lt (lt_zaAddr (by omega))
  have hrow : (BitVec.ofNat m.zaAddrWidth rowIdx).toNat = rowIdx :=
    Nat.mod_eq_of_lt (lt_zaAddr (by omega))
  have hsame : (t = ⟨tileIdx, ht⟩ ∧ r = sliceOf m .double (BitVec.ofNat m.zaAddrWidth rowIdx)) ↔
      t = tileIdx ∧ r = rowIdx % m.dim .double := by
    simp only [Fin.ext_iff, sliceOf, hrow]
  rw [zeroRow, setTypedHorizontalSlice_byteOf za _ _ htile]
  simp only [hsame, lanes, BitVec.ofNat_eq_ofNat, elem_zero_vector]

/-- Eight iterations reach the first eight rows of the tile, each at least once. -/
theorem zeroTile_byteOf (imm8 : BitVec 8) {tileIdx : ℕ} (ht : tileIdx < 8) :
    zeroTile imm8 za tileIdx (byteOf t r c i) =
      if t = tileIdx ∧ imm8.getLsbD t ∧ (r : ℕ) < 8 then 0 else za (byteOf t r c i) := by
  have hreach : (∃ rowIdx ∈ List.range 8, t = tileIdx ∧ (r : ℕ) = rowIdx % m.dim .double) ↔
      t = tileIdx ∧ (r : ℕ) < 8 := by
    constructor
    · rintro ⟨rowIdx, hmem, htile, h⟩
      have hlt := List.mem_range.mp hmem
      have hle := Nat.mod_le rowIdx (m.dim .double)
      exact ⟨htile, by omega⟩
    · rintro ⟨htile, h⟩
      exact ⟨r, List.mem_range.mpr h, htile, (Nat.mod_eq_of_lt r.isLt).symm⟩
  have hloop := Loops.foldl_overwrite (fun za : ZaMem m => za (byteOf t r c i)) 0
    (fun rowIdx => t = tileIdx ∧ r = rowIdx % m.dim .double)
    (fun rowIdx hmem za => zeroRow_byteOf za t r c i ht (List.mem_range.mp hmem)) za
  simp only [hreach] at hloop
  rw [zeroTile, isActivated_eq, Nat.mul_one]
  by_cases hbit : imm8.getLsbD tileIdx
  · rw [if_pos hbit, hloop]
    apply if_congr _ rfl rfl
    constructor
    · rintro ⟨rfl, hr⟩
      exact ⟨rfl, hbit, hr⟩
    · rintro ⟨rfl, _, hr⟩
      exact ⟨rfl, hr⟩
  · rw [if_neg hbit, if_neg]
    rintro ⟨rfl, h, _⟩
    exact hbit h

end Effect

/-- The exact effect of `ZERO`: of the selected rows, the first 64 are cleared. -/
theorem zero_za (s : State m) (inp : Inputs m) (addr : BitVec m.zaAddrWidth) :
    (zero s inp).za addr =
      if inp.imm8.getLsbD (zaRow addr % 8) ∧ zaRow addr < 64 then 0 else s.za addr := by
  obtain ⟨t, r, c, i, rfl⟩ := exists_byteOf .double addr
  have hrow : zaRow (byteOf t r c i) = t + r * 8 := byteOf_row t r c i
  have hmod : zaRow (byteOf t r c i) % 8 = t := by
    rw [hrow, Nat.add_mul_mod_self_right]
    exact Nat.mod_eq_of_lt t.isLt
  have hbound : zaRow (byteOf t r c i) < 64 ↔ (r : ℕ) < 8 := by
    have ht : (t : ℕ) < 8 := t.isLt
    rw [hrow]
    omega
  have hloop := Loops.foldl_overwrite (fun za : ZaMem m => za (byteOf t r c i)) 0
    (fun tileIdx => (t : ℕ) = tileIdx ∧ inp.imm8.getLsbD t ∧ (r : ℕ) < 8)
    (fun tileIdx hmem za => zeroTile_byteOf za t r c i inp.imm8 (List.mem_range.mp hmem)) s.za
  rw [zero, hmod]
  simp only [hbound]
  refine hloop.trans (if_congr ?_ rfl rfl)
  constructor
  · rintro ⟨_, _, rfl, h⟩
    exact h
  · intro h
    exact ⟨t, List.mem_range.mpr t.isLt, rfl, h⟩

/-! ## The intended effect -/

/-- What `ZERO` is for: the rows selected by `imm8` are cleared and all others
kept, hence so are the tiles of every size up to 64 bits whose mask it is. -/
structure ClearsSelected (imm8 : BitVec 8) (za za' : ZaMem m) : Prop where
  rows : ∀ addr, za' addr = if imm8.getLsbD (zaRow addr % 8) then 0 else za addr
  tile : ∀ (esize : ElementSize) (t : TileIdx esize), esize.bytes ≤ 8 →
    (∀ i < 8, imm8.getLsbD i = decide (i % esize.bytes = t)) →
    ∀ isVertical addr, za' addr =
      if ∃ k, InSlice esize isVertical t k addr then 0 else za addr
  all : imm8 = 0xFF → ∀ addr, za' addr = 0

/-- Clearing the selected rows is all of it. -/
theorem clearsSelected_of_rows {imm8 : BitVec 8} {za za' : ZaMem m}
    (rows : ∀ addr, za' addr = if imm8.getLsbD (zaRow addr % 8) then 0 else za addr) :
    ClearsSelected imm8 za za' where
  rows := rows
  tile := by
    intro esize t hsize hmask isVertical addr
    have hdvd : esize.bytes ∣ 8 := ElementSize.bytes_dvd esize .double hsize
    have hbit : imm8.getLsbD (zaRow addr % 8) ↔ ∃ k, InSlice esize isVertical t k addr := by
      rw [hmask _ (Nat.mod_lt _ (by decide)), exists_inSlice_iff, Nat.mod_mod_of_dvd _ hdvd,
        decide_eq_true_iff]
      rfl
    rw [rows]
    exact if_congr hbit rfl rfl
  all := by
    rintro rfl addr
    have hall : ∀ i < 8, (0xFF : BitVec 8).getLsbD i = true := by decide
    rw [rows, if_pos (hall _ (Nat.mod_lt _ (by decide)))]

/-- Row 64, the ninth slice of `ZA0.D`, is out of reach. -/
theorem not_clearsSelected_of_row_64 (h : 64 < m.svlB) {s : State m} {inp : Inputs m}
    (hbit : inp.imm8.getLsbD 0) (hza : s.za (byteAddr m 64 0) ≠ 0) :
    ¬ ClearsSelected inp.imm8 s.za (zero s inp).za := by
  have hrow : zaRow (byteAddr m 64 0) = 64 := by
    rw [zaRow, byteAddr_toNat h m.svlB_pos, Nat.add_zero, Nat.mul_div_cancel _ m.svlB_pos]
  intro hclear
  have hcleared := hclear.rows (byteAddr m 64 0)
  rw [zero_za, hrow, if_neg (by simp), if_pos hbit] at hcleared
  exact hza hcleared

/-- `ZERO` does what it is for exactly when the selected rows from row 64 on,
which it does not reach, hold zeros already. -/
theorem zero_clearsSelected_iff (s : State m) (inp : Inputs m) :
    ClearsSelected inp.imm8 s.za (zero s inp).za ↔
      ∀ addr : BitVec m.zaAddrWidth, 64 ≤ zaRow addr → inp.imm8.getLsbD (zaRow addr % 8) →
        s.za addr = 0 := by
  constructor
  · intro h addr hrow hbit
    have hcleared := h.rows addr
    rwa [zero_za, if_neg (fun hc => Nat.not_lt.mpr hrow hc.2), if_pos hbit] at hcleared
  · intro h
    apply clearsSelected_of_rows
    intro addr
    rw [zero_za]
    by_cases hbit : inp.imm8.getLsbD (zaRow addr % 8)
    · by_cases hrow : zaRow addr < 64
      · rw [if_pos ⟨hbit, hrow⟩, if_pos hbit]
      · rw [if_neg (fun hc => hrow hc.2), if_pos hbit, h addr (Nat.le_of_not_lt hrow) hbit]
    · rw [if_neg (fun hc => hbit hc.1), if_neg hbit]

/-- At `SVL = 1024`, with only the bit of `ZA0.D` set, row 64 is not cleared. -/
theorem zero_keeps_row_64 :
    let m : ArmSme := ⟨true, 1024, ⟨10, rfl⟩, by decide, by decide⟩
    let s : State m := { (default : State m) with pstateZa := true, za := fun _ => 1 }
    let inp : Inputs m := { (default : Inputs m) with cmd := tempOpcode, imm := 1 }
    decode .zero inp s = true ∧ ¬ ClearsSelected inp.imm8 s.za (zero s inp).za := by
  intro m s inp
  refine ⟨rfl, not_clearsSelected_of_row_64 (by decide) (by decide) ?_⟩
  exact (by decide : (1 : BitVec 8) ≠ 0)

/-- The vector lengths at which the intended effect is always obtained. -/
theorem zero_clearsSelected_always_iff :
    (∀ (s : State m) (inp : Inputs m), ClearsSelected inp.imm8 s.za (zero s inp).za) ↔
      m.svl ≤ 512 := by
  have hsvl := m.svl_eq
  constructor
  · intro h
    by_contra hgt
    refine not_clearsSelected_of_row_64 (m := m) (by omega) ?_ ?_
      (h { (default : State m) with za := fun _ => 1 } { (default : Inputs m) with imm := 1 })
    · exact (by decide : (BitVec.extractLsb' 0 8 (1 : BitVec 8)).getLsbD 0 = true)
    · exact (by decide : (1 : BitVec 8) ≠ 0)
  · intro hle s inp
    apply clearsSelected_of_rows
    intro addr
    have hrow : zaRow addr < 64 := by
      have hlt : zaRow addr < m.svlB :=
        Nat.div_lt_of_lt_mul (zaAddr_toNat_lt addr)
      omega
    rw [zero_za]
    exact if_congr (and_iff_left hrow) rfl rfl

end ArmSmeIla
