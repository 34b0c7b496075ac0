import ArmSmeIla.Views.CombineMatrix
import ArmSmeIla.Views.DramBlock

/-!
# Readers at concrete addresses

The tests read DRAM through overloads that take a `size_t`. They gather the
same bytes as the readers of the model as long as the 64-bit addresses do not
wrap around; the model widens the address first and goes on past `2 ^ 64`.
-/

namespace ArmSmeIla

open Packing

variable {m : ArmSme} {esize : ElementSize}

/-! ## Addresses -/

/-- The address of byte `k` as the overloads compute it. -/
def wrappedAddr (base : BitVec 64) (k : ℕ) : BitVec 128 := (base + BitVec.ofNat 64 k).setWidth 128

theorem wrappedAddr_eq (base : BitVec 64) (k : ℕ) :
    wrappedAddr base k = BitVec.ofNat 128 ((base.toNat + k) % 2 ^ 64) := by
  apply BitVec.eq_of_toNat_eq
  rw [wrappedAddr, BitVec.toNat_setWidth, BitVec.toNat_add, BitVec.toNat_ofNat, Nat.add_mod_mod,
    BitVec.toNat_ofNat]

/-- The address of byte `k` as the model computes it. -/
theorem blockAddr_setWidth (base : BitVec 64) (k : ℕ) :
    blockAddr (base.setWidth 128) k = BitVec.ofNat 128 (base.toNat + k) := by
  rw [blockAddr, BitVec.ofNat_add]
  congr 1
  apply BitVec.eq_of_toNat_eq
  rw [BitVec.toNat_setWidth, BitVec.toNat_ofNat]

/-! ## Reading -/

theorem elem_dramGetElementAsZaEndianSizeT (dram : DramMem) (addr : BitVec 64)
    (convertEndianness : Bool) {b : ℕ} (hb : b < esize.bytes) :
    elem (dramGetElementAsZaEndianSizeT m dram addr esize convertEndianness) b 8 =
      dram (wrappedAddr addr (memByte esize (swaps m convertEndianness) b)) := by
  let byteAt (i : ℕ) : BitVec 8 := dramGetByteNoEndianSizeT dram (addr + BitVec.ofNat 64 i)
  have hfirst : dramGetByteNoEndianSizeT dram addr = byteAt 0 := by
    simp only [byteAt, BitVec.add_zero]
  exact elem_appendAll_swapped byteAt hfirst convertEndianness rfl hb

/-- Before iteration `n` the loop has set the elements below `n`, and its address
is that of element `n`. -/
theorem lanes_dramGetVectorAsZaEndianSizeT (dram : DramMem) (base : BitVec 64)
    (convertEndianness : Bool) (i : SliceIdx m esize) :
    lanes esize (dramGetVectorAsZaEndianSizeT m dram base esize m.svl convertEndianness) i =
      dramGetElementAsZaEndianSizeT m dram (base + BitVec.ofNat 64 (i * esize.bytes)) esize
        convertEndianness := by
  let element (i : ℕ) : BitVec esize.bits := dramGetElementAsZaEndianSizeT m dram
    (base + BitVec.ofNat 64 (i * esize.bytes)) esize convertEndianness
  have hloop := Loops.foldl_range_induction (f := dramGetStepSizeT m dram esize convertEndianness)
    (s := (0, base)) (n := m.dim esize)
    (fun n acc => acc = ((List.range n).foldl (fun result i =>
      setElementInVectorFromLSB result i esize.bits (element i)) 0,
        base + BitVec.ofNat 64 (n * esize.bytes))) ?_ ?_
  · show elem ((List.range (m.dim esize)).foldl (dramGetStepSizeT m dram esize convertEndianness)
      (0, base)).1 i esize.bits = _
    rw [hloop]
    exact elem_foldl_setElement (m.dim_mul_bits esize).symm esize.bits_pos (fun i _ => element i) 0
      i.isLt
  · rw [Nat.zero_mul, BitVec.add_zero]
    rfl
  · rintro n _ _ rfl
    rw [dramGetStepSizeT, BitVec.add_assoc, ← BitVec.ofNat_add, List.range_succ, List.foldl_append,
      Nat.succ_mul]
    rfl

theorem elem_dramGetVectorAsZaEndianSizeT (dram : DramMem) (base : BitVec 64)
    (convertEndianness : Bool) (i : SliceIdx m esize) (b : Fin esize.bytes) :
    elem (lanes esize (dramGetVectorAsZaEndianSizeT m dram base esize m.svl convertEndianness) i)
        b 8 =
      dram (wrappedAddr base (i * esize.bytes + memByte esize (swaps m convertEndianness) b)) := by
  rw [lanes_dramGetVectorAsZaEndianSizeT, elem_dramGetElementAsZaEndianSizeT _ _ _ b.isLt,
    wrappedAddr, BitVec.add_assoc, ← BitVec.ofNat_add]
  rfl

/-! ## Agreement -/

/-- Vectors gathered from two byte sequences in one byte order are equal when
the sequences are. -/
theorem eq_iff_bytes {v v' : BitVec m.svl} {byteAt byteAt' : ℕ → BitVec 8} (swapped : Bool)
    (hv : ∀ (i : SliceIdx m esize) (b : Fin esize.bytes),
      elem (lanes esize v i) b 8 = byteAt (i * esize.bytes + memByte esize swapped b))
    (hv' : ∀ (i : SliceIdx m esize) (b : Fin esize.bytes),
      elem (lanes esize v' i) b 8 = byteAt' (i * esize.bytes + memByte esize swapped b)) :
    v = v' ↔ ∀ k < m.svlB, byteAt k = byteAt' k := by
  constructor
  · rintro rfl k hk
    have hi : k / esize.bytes < m.dim esize := by
      rwa [Nat.div_lt_iff_lt_mul esize.bytes_pos, m.dim_mul_bytes]
    have hb := Nat.mod_lt k esize.bytes_pos
    have hbyte := (hv ⟨_, hi⟩ ⟨_, memByte_lt swapped hb⟩).symm.trans
      (hv' ⟨_, hi⟩ ⟨_, memByte_lt swapped hb⟩)
    simp only [memByte_memByte swapped hb, Nat.div_add_mod'] at hbyte
    exact hbyte
  · intro h
    apply lanes_injective esize
    funext i
    apply ext_elem esize.bits_eq
    intro b hb
    refine (hv i ⟨b, hb⟩).trans ((h _ ?_).trans (hv' i ⟨b, hb⟩).symm)
    rw [← m.dim_mul_bytes esize]
    exact offset_lt i.isLt (memByte_lt swapped hb)

/-- Both pairs of readers return the same value. -/
def ReadersAgree (m : ArmSme) (dram : DramMem) (base : BitVec 64) (esize : ElementSize)
    (convertEndianness : Bool) : Prop :=
  dramGetVectorAsZaEndianSizeT m dram base esize m.svl convertEndianness =
      dramGetVectorAsZaEndian m dram (base.setWidth 128) esize convertEndianness ∧
    dramGetElementAsZaEndianSizeT m dram base esize convertEndianness =
      dramGetElementAsZaEndian m dram (base.setWidth 128) esize convertEndianness

/-- The readers of one element return the same value. -/
def ElementReadersAgree (m : ArmSme) (dram : DramMem) (base : BitVec 64) (esize : ElementSize)
    (convertEndianness : Bool) : Prop :=
  dramGetElementAsZaEndianSizeT m dram base esize convertEndianness =
    dramGetElementAsZaEndian m dram (base.setWidth 128) esize convertEndianness

/-- The first byte at which the two addresses of a byte differ is at `2 ^ 64`. -/
theorem wrapped_iff (dram : DramMem) (base : BitVec 64) (k : ℕ) :
    dram (wrappedAddr base k) = dram (blockAddr (base.setWidth 128) k) ↔
      (2 ^ 64 ≤ base.toNat + k → dram (BitVec.ofNat 128 (base.toNat + k)) =
        dram (BitVec.ofNat 128 ((base.toNat + k) % 2 ^ 64))) := by
  rw [wrappedAddr_eq, blockAddr_setWidth]
  constructor
  · intro h _
    exact h.symm
  · intro h
    by_cases hwrap : 2 ^ 64 ≤ base.toNat + k
    · exact (h hwrap).symm
    · rw [Nat.mod_eq_of_lt (Nat.lt_of_not_le hwrap)]

theorem elementReadersAgree_iff (m : ArmSme) (dram : DramMem) (base : BitVec 64)
    (esize : ElementSize) (convertEndianness : Bool) :
    ElementReadersAgree m dram base esize convertEndianness ↔
      ∀ k < esize.bytes, 2 ^ 64 ≤ base.toNat + k →
        dram (BitVec.ofNat 128 (base.toNat + k)) =
          dram (BitVec.ofNat 128 ((base.toNat + k) % 2 ^ 64)) := by
  unfold ElementReadersAgree
  constructor
  · intro h k hk
    have hb := memByte_lt (swaps m convertEndianness) hk
    have hbyte := congrArg (elem · (memByte esize (swaps m convertEndianness) k) 8) h
    simp only [elem_dramGetElementAsZaEndianSizeT _ _ _ hb,
      elem_dramGetElementAsZaEndian _ _ _ hb, memByte_memByte _ hk] at hbyte
    exact (wrapped_iff dram base k).mp hbyte
  · intro h
    apply ext_elem esize.bits_eq
    intro b hb
    rw [elem_dramGetElementAsZaEndianSizeT _ _ _ hb, elem_dramGetElementAsZaEndian _ _ _ hb]
    exact (wrapped_iff dram base _).mpr (h _ (memByte_lt _ hb))

theorem readersAgree_iff (m : ArmSme) (dram : DramMem) (base : BitVec 64) (esize : ElementSize)
    (convertEndianness : Bool) :
    ReadersAgree m dram base esize convertEndianness ↔
      ∀ k < m.svlB, 2 ^ 64 ≤ base.toNat + k →
        dram (BitVec.ofNat 128 (base.toNat + k)) =
          dram (BitVec.ofNat 128 ((base.toNat + k) % 2 ^ 64)) := by
  have hvector : dramGetVectorAsZaEndianSizeT m dram base esize m.svl convertEndianness =
      dramGetVectorAsZaEndian m dram (base.setWidth 128) esize convertEndianness ↔
        ∀ k < m.svlB, dram (wrappedAddr base k) = dram (blockAddr (base.setWidth 128) k) :=
    eq_iff_bytes (swaps m convertEndianness)
      (elem_dramGetVectorAsZaEndianSizeT dram base convertEndianness)
      (elem_dramGetVectorAsZaEndian dram (base.setWidth 128) convertEndianness)
  simp only [wrapped_iff] at hvector
  rw [ReadersAgree, hvector, and_iff_left_iff_imp]
  -- the element is the first one of the vector
  intro h
  refine (elementReadersAgree_iff m dram base esize convertEndianness).mpr fun k hk => h k ?_
  have := esize.bytes_le
  have := m.svlB_ge
  omega

/-- Wrapping around can be told by some DRAM unless no byte reaches `2 ^ 64`. -/
theorem forall_dram_wrapped_iff (base : BitVec 64) (n : ℕ) :
    (∀ dram : DramMem, ∀ k < n, 2 ^ 64 ≤ base.toNat + k →
      dram (BitVec.ofNat 128 (base.toNat + k)) =
        dram (BitVec.ofNat 128 ((base.toNat + k) % 2 ^ 64))) ↔ base.toNat + n ≤ 2 ^ 64 := by
  constructor
  · intro h
    by_contra hover
    have hbase := base.isLt
    -- a DRAM that is 1 at the address `2 ^ 64` only
    have hbyte := h (fun addr => if addr = BitVec.ofNat 128 (2 ^ 64) then 1 else 0)
      (2 ^ 64 - base.toNat) (by omega) (by omega)
    rw [Nat.add_sub_cancel' hbase.le] at hbyte
    exact absurd hbyte (by decide)
  · intro hfits dram k hk hwrap
    omega

/-- For one DRAM the readers agree when wrapping around makes no difference to
its bytes, and for every DRAM when no address of the block reaches `2 ^ 64`. Of
the readers of one element the same holds with the addresses of the element. -/
theorem concrete_readers (m : ArmSme) (base : BitVec 64) (esize : ElementSize)
    (convertEndianness : Bool) :
    (∀ dram : DramMem, ReadersAgree m dram base esize convertEndianness ↔
      ∀ k < m.svlB, 2 ^ 64 ≤ base.toNat + k →
        dram (BitVec.ofNat 128 (base.toNat + k)) =
          dram (BitVec.ofNat 128 ((base.toNat + k) % 2 ^ 64))) ∧
    ((∀ dram : DramMem, ReadersAgree m dram base esize convertEndianness) ↔
      base.toNat + m.svlB ≤ 2 ^ 64) ∧
    (∀ dram : DramMem, ElementReadersAgree m dram base esize convertEndianness ↔
      ∀ k < esize.bytes, 2 ^ 64 ≤ base.toNat + k →
        dram (BitVec.ofNat 128 (base.toNat + k)) =
          dram (BitVec.ofNat 128 ((base.toNat + k) % 2 ^ 64))) ∧
    ((∀ dram : DramMem, ElementReadersAgree m dram base esize convertEndianness) ↔
      base.toNat + esize.bytes ≤ 2 ^ 64) := by
  have hboth := fun dram => readersAgree_iff m dram base esize convertEndianness
  have helement := fun dram => elementReadersAgree_iff m dram base esize convertEndianness
  refine ⟨hboth, ?_, helement, ?_⟩
  · exact (forall_congr' hboth).trans (forall_dram_wrapped_iff base m.svlB)
  · exact (forall_congr' helement).trans (forall_dram_wrapped_iff base esize.bytes)

/-- A block that starts at the last address of a `size_t`. -/
theorem readers_disagree_at_top :
    let dram : DramMem := fun addr => if addr = 0x10000000000000000 then 1 else 0
    dramGetVectorAsZaEndianSizeT smeDramLE dram 0xFFFFFFFFFFFFFFFF .half 128 true ≠
        dramGetVectorAsZaEndian smeDramLE dram 0xFFFFFFFFFFFFFFFF .half true ∧
      ¬ReadersAgree smeDramLE dram 0xFFFFFFFFFFFFFFFF .half true := by
  intro dram
  have hvector : dramGetVectorAsZaEndianSizeT smeDramLE dram 0xFFFFFFFFFFFFFFFF .half 128 true ≠
      dramGetVectorAsZaEndian smeDramLE dram 0xFFFFFFFFFFFFFFFF .half true := by decide
  exact ⟨hvector, fun hagree => hvector hagree.1⟩

end ArmSmeIla
