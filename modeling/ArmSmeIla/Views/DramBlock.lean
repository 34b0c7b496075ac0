import ArmSmeIla.Model.Dram
import ArmSmeIla.Views.TileMatrix

/-!
# The DRAM block of a vector

A vector access covers `SVL_B` consecutive bytes. Byte `b` of lane `i` is at a
fixed place of the block, which depends on the endianness only; reading and
writing a vector agree on that place, so they form a lens. Addresses are taken
modulo `2 ^ 128`, as the ILA does.
-/

namespace ArmSmeIla

open Packing

variable {m : ArmSme} {esize : ElementSize}

/-! ## Blocks -/

/-- Byte `j` of the block at `base`. -/
def blockAddr (base : BitVec 128) (j : ℕ) : BitVec 128 := base + BitVec.ofNat 128 j

/-- `addr` is in `[base, base + SVL_B)`. -/
def InBlock (m : ArmSme) (base addr : BitVec 128) : Prop := (addr - base).toNat < m.svlB

instance (base addr : BitVec 128) : Decidable (InBlock m base addr) := by
  unfold InBlock
  infer_instance

theorem lt_dramAddr {j : ℕ} (hj : j ≤ m.svlB) : j < 2 ^ 128 :=
  Nat.lt_of_le_of_lt hj (Nat.lt_trans m.svlB_lt (by decide))

theorem blockAddr_inj (base : BitVec 128) {j k : ℕ} (hj : j < m.svlB) (hk : k < m.svlB) :
    blockAddr base j = blockAddr base k ↔ j = k := by
  constructor
  · intro h
    have hn := congrArg BitVec.toNat (BitVec.add_right_inj _ |>.mp h)
    rwa [BitVec.toNat_ofNat, BitVec.toNat_ofNat, Nat.mod_eq_of_lt (lt_dramAddr hj.le),
      Nat.mod_eq_of_lt (lt_dramAddr hk.le)] at hn
  · rintro rfl
    rfl

theorem inBlock_iff (base addr : BitVec 128) :
    InBlock m base addr ↔ ∃ j < m.svlB, addr = blockAddr base j := by
  constructor
  · intro h
    refine ⟨(addr - base).toNat, h, ?_⟩
    rw [blockAddr, BitVec.ofNat_toNat, BitVec.setWidth_eq, BitVec.add_comm, BitVec.sub_add_cancel]
  · rintro ⟨j, hj, rfl⟩
    rw [InBlock, blockAddr, BitVec.add_comm, BitVec.add_sub_cancel, BitVec.toNat_ofNat,
      Nat.mod_eq_of_lt (lt_dramAddr hj.le)]
    exact hj

/-- A block that does not wrap around is an interval. -/
theorem inBlock_iff_toNat {base : BitVec 128} (h : base.toNat + m.svlB ≤ 2 ^ 128)
    (addr : BitVec 128) :
    InBlock m base addr ↔ base.toNat ≤ addr.toNat ∧ addr.toNat < base.toNat + m.svlB := by
  have hlt := addr.isLt
  have hpos := m.svlB_pos
  rw [InBlock, BitVec.toNat_sub]
  omega

theorem blockAddr_add (base : BitVec 128) (j k : ℕ) :
    blockAddr base j + BitVec.ofNat 128 k = blockAddr base (j + k) := by
  rw [blockAddr, blockAddr, BitVec.add_assoc, ← BitVec.ofNat_add]

/-! ## Byte order -/

/-- Where byte `b` of an element is stored: ZA is big endian, so a swap puts
the least significant byte first. -/
def memByte (esize : ElementSize) (swapped : Bool) (b : ℕ) : ℕ :=
  if swapped then b else esize.bytes - 1 - b

theorem memByte_lt (swapped : Bool) {b : ℕ} (hb : b < esize.bytes) :
    memByte esize swapped b < esize.bytes := by
  unfold memByte
  split <;> omega

/-- The same permutation goes both ways. -/
theorem memByte_memByte (swapped : Bool) {b : ℕ} (hb : b < esize.bytes) :
    memByte esize swapped (memByte esize swapped b) = b := by
  unfold memByte
  split <;> omega

/-- An access swaps when it converts and DRAM is little endian. -/
def swaps (m : ArmSme) (convertEndianness : Bool) : Bool := convertEndianness && m.dramIsLE

theorem elem_swapBytesInVector (v : BitVec esize.bits) (doSwap : Bool) {b : ℕ}
    (hb : b < esize.bytes) :
    elem (swapBytesInVector v doSwap) b 8 =
      elem v (if doSwap then esize.bytes - 1 - b else b) 8 := by
  unfold swapBytesInVector
  split
  · next h =>
    rw [Bool.or_eq_true, Bool.not_eq_true', beq_iff_eq] at h
    rcases h with rfl | h
    · rfl
    · have hone : esize.bytes = 1 := by rw [ElementSize.bytes, h]
      obtain rfl : b = 0 := by omega
      rw [hone]
      cases doSwap <;> rfl
  · next h =>
    rw [Bool.or_eq_true, not_or, Bool.not_eq_true', Bool.not_eq_false] at h
    have hlen : b < ((List.range (esize.bits / 8)).map fun i =>
        getElementInVectorFromLSB v i 8).length := by
      rw [List.length_map, List.length_range]
      exact hb
    rw [if_pos h.1]
    simp only [elem_cast, concatenate]
    rw [elem_concat _ hlen]
    simp only [List.getElem_map, List.getElem_range, List.length_map, List.length_range,
      getElementInVectorFromLSB_eq]
    rfl

theorem elem_beToDramEndian (v : BitVec esize.bits) {b : ℕ} (hb : b < esize.bytes) :
    elem (beToDramEndian m v) b 8 =
      elem v (if m.dramIsLE then esize.bytes - 1 - b else b) 8 := by
  have hswap : (!(m.zaIsLE == m.dramIsLE)) = m.dramIsLE := by
    unfold ArmSme.zaIsLE
    cases m.dramIsLE <;> rfl
  rw [beToDramEndian, hswap]
  exact elem_swapBytesInVector v m.dramIsLE hb

/-- The address of byte `b` of lane `i`. -/
def laneByteAddr (m : ArmSme) (esize : ElementSize) (convertEndianness : Bool)
    (base : BitVec 128) (i b : ℕ) : BitVec 128 :=
  blockAddr base (i * esize.bytes + memByte esize (swaps m convertEndianness) b)

theorem inBlock_iff_laneByteAddr (esize : ElementSize) (convertEndianness : Bool)
    (base addr : BitVec 128) :
    InBlock m base addr ↔ ∃ (i : SliceIdx m esize) (b : Fin esize.bytes),
      addr = laneByteAddr m esize convertEndianness base i b := by
  rw [inBlock_iff]
  constructor
  · rintro ⟨j, hj, rfl⟩
    have hi : j / esize.bytes < m.dim esize := by
      rwa [Nat.div_lt_iff_lt_mul esize.bytes_pos, m.dim_mul_bytes]
    have hb := Nat.mod_lt j esize.bytes_pos
    refine ⟨⟨_, hi⟩, ⟨memByte esize (swaps m convertEndianness) (j % esize.bytes),
      memByte_lt _ hb⟩, ?_⟩
    rw [laneByteAddr, memByte_memByte _ hb, Nat.div_add_mod']
  · rintro ⟨i, b, rfl⟩
    refine ⟨_, ?_, rfl⟩
    rw [← m.dim_mul_bytes esize]
    exact offset_lt i.isLt (memByte_lt _ b.isLt)

/-! ## Reading a vector -/

/-- The bytes of an element, appended in address order and then swapped or not. -/
theorem elem_appendAll_swapped (byteAt : ℕ → BitVec 8) {first : BitVec 8}
    (hfirst : first = byteAt 0) (convertEndianness : Bool) {raw : BitVec esize.bits}
    {hbits : 8 + ((List.range' 1 (esize.bytes - 1)).map byteAt).length * 8 = esize.bits}
    (hraw : raw = (appendAll first ((List.range' 1 (esize.bytes - 1)).map byteAt)).cast hbits)
    {b : ℕ} (hb : b < esize.bytes) :
    elem (if convertEndianness then dramEndianToBe m raw else raw) b 8 =
      byteAt (memByte esize (swaps m convertEndianness) b) := by
  have hbyte : ∀ b < esize.bytes, elem raw b 8 = byteAt (esize.bytes - 1 - b) := by
    intro b hb
    rw [hraw, elem_cast, hfirst]
    exact elem_appendAll_range byteAt hb
  cases convertEndianness with
  | false => exact hbyte b hb
  | true =>
      rw [if_pos rfl, dramEndianToBe, elem_beToDramEndian _ hb, swaps, Bool.true_and]
      cases m.dramIsLE with
      | false => exact hbyte b hb
      | true =>
          rw [if_pos rfl, hbyte _ (by omega), memByte, if_pos rfl]
          congr 1
          omega

theorem elem_dramGetElementAsZaEndian (dram : DramMem) (addr : BitVec 128)
    (convertEndianness : Bool) {b : ℕ} (hb : b < esize.bytes) :
    elem (dramGetElementAsZaEndian m dram addr esize convertEndianness) b 8 =
      dram (addr + BitVec.ofNat 128 (memByte esize (swaps m convertEndianness) b)) := by
  let byteAt (i : ℕ) : BitVec 8 := dramGetByteNoEndian dram (addr + BitVec.ofNat 128 i)
  have hfirst : dramGetByteNoEndian dram addr = byteAt 0 := by
    simp only [byteAt, BitVec.add_zero]
  exact elem_appendAll_swapped byteAt hfirst convertEndianness rfl hb

theorem getElem_dramGetElements (dram : DramMem) (convertEndianness : Bool) (n : ℕ)
    (addr : BitVec 128) (i : ℕ)
    (hi : i < (dramGetElements m dram esize convertEndianness n addr).length) :
    (dramGetElements m dram esize convertEndianness n addr)[i] =
      dramGetElementAsZaEndian m dram (blockAddr addr (i * esize.bytes)) esize
        convertEndianness := by
  induction n generalizing addr i with
  | zero => simp [dramGetElements] at hi
  | succ n ih =>
      cases i with
      | zero => simp [dramGetElements, blockAddr]
      | succ i =>
          have hnext : blockAddr (addr + BitVec.ofNat 128 (esize.bits / 8)) (i * esize.bytes) =
              blockAddr addr ((i + 1) * esize.bytes) := by
            rw [Nat.succ_mul, Nat.add_comm]
            exact blockAddr_add addr esize.bytes _
          simp only [dramGetElements, List.getElem_cons_succ]
          rw [ih, hnext]

theorem lanes_dramGetVectorAsZaEndian (dram : DramMem) (base : BitVec 128)
    (convertEndianness : Bool) (i : SliceIdx m esize) :
    lanes esize (dramGetVectorAsZaEndian m dram base esize convertEndianness) i =
      dramGetElementAsZaEndian m dram (blockAddr base (i * esize.bytes)) esize
        convertEndianness := by
  have hi : (i : ℕ) < (dramGetElements m dram esize convertEndianness (m.dim esize)
      base).length := by
    rw [length_dramGetElements]
    exact i.isLt
  simp only [lanes, dramGetVectorAsZaEndian, elem_cast, concatenate]
  rw [elem_concat_reverse _ hi, getElem_dramGetElements]

theorem elem_dramGetVectorAsZaEndian (dram : DramMem) (base : BitVec 128)
    (convertEndianness : Bool) (i : SliceIdx m esize) (b : Fin esize.bytes) :
    elem (lanes esize (dramGetVectorAsZaEndian m dram base esize convertEndianness) i) b 8 =
      dram (laneByteAddr m esize convertEndianness base i b) := by
  rw [lanes_dramGetVectorAsZaEndian, elem_dramGetElementAsZaEndian _ _ _ b.isLt, blockAddr_add,
    laneByteAddr]

/-- Where the byte order of an element is that of the vector, the bytes are
read in increasing order from the least significant one. -/
theorem elem_dramGetVector_of_swaps (dram : DramMem) (base : BitVec 128)
    {convertEndianness : Bool} (h : swaps m convertEndianness = true ∨ esize = .byte) {j : ℕ}
    (hj : j < m.svlB) :
    elem (dramGetVectorAsZaEndian m dram base esize convertEndianness) j 8 =
      dram (blockAddr base j) := by
  have hi : j / esize.bytes < m.dim esize := by
    rwa [Nat.div_lt_iff_lt_mul esize.bytes_pos, m.dim_mul_bytes]
  have hb := Nat.mod_lt j esize.bytes_pos
  have hmem : memByte esize (swaps m convertEndianness) (j % esize.bytes) = j % esize.bytes := by
    rcases h with h | rfl
    · rw [h, memByte, if_pos rfl]
    · have hzero : j % ElementSize.byte.bytes = 0 := Nat.mod_one j
      rw [hzero]
      cases swaps m convertEndianness <;> rfl
  have hread := elem_dramGetVectorAsZaEndian dram base convertEndianness
    (⟨j / esize.bytes, hi⟩ : SliceIdx m esize) ⟨j % esize.bytes, hb⟩
  rw [elem_lanes, laneByteAddr, hmem] at hread
  simp only [Nat.div_add_mod'] at hread
  exact hread

/-! ## Writing a vector -/

/-- The element of iteration `i`, in DRAM's byte order. -/
def storedElem (m : ArmSme) (vector : BitVec m.svl) (esize : ElementSize)
    (convertEndianness : Bool) (i : ℕ) : BitVec esize.bits :=
  if convertEndianness then beToDramEndian m (elem vector i esize.bits)
  else elem vector i esize.bits

theorem elem_storedElem (vector : BitVec m.svl) (convertEndianness : Bool) (i : SliceIdx m esize)
    {b : ℕ} (hb : b < esize.bytes) :
    elem (storedElem m vector esize convertEndianness i) (esize.bytes - 1 - b) 8 =
      elem (lanes esize vector i) (memByte esize (swaps m convertEndianness) b) 8 := by
  unfold storedElem swaps
  cases convertEndianness with
  | false => rfl
  | true =>
      rw [if_pos rfl, elem_beToDramEndian _ (by omega), Bool.true_and, memByte]
      have hback : esize.bytes - 1 - (esize.bytes - 1 - b) = b := by omega
      rw [hback]
      rfl

section Write

variable (dram : DramMem) (base : BitVec 128) (vector : BitVec m.svl) (convertEndianness : Bool)

/-- The memory part of the loop. -/
def storeElems (dram : DramMem) (base : BitVec 128) (esize : ElementSize)
    (x : ℕ → BitVec esize.bits) (n : ℕ) : DramMem :=
  (List.range n).foldl
    (fun dram i => dramSetElementNoEndian dram (blockAddr base (i * esize.bytes)) esize (x i)) dram

/-- The three accumulators of the loop, each on its own. -/
theorem dramSetLoop_eq :
    dramSetLoop m dram base vector esize convertEndianness =
      { addr := blockAddr base (m.dim esize * esize.bytes)
        newDram := storeElems dram base esize (storedElem m vector esize convertEndianness)
          (m.dim esize)
        wbElems := (List.range (m.dim esize)).map
          (storedElem m vector esize convertEndianness) } := by
  apply Loops.foldl_range_induction (fun n (wb : WriteBack esize) => wb =
    { addr := blockAddr base (n * esize.bytes)
      newDram := storeElems dram base esize (storedElem m vector esize convertEndianness) n
      wbElems := (List.range n).map (storedElem m vector esize convertEndianness) })
  · simp [blockAddr, storeElems]
  · rintro n _ _ rfl
    have hnext : blockAddr base (n * esize.bytes) + BitVec.ofNat 128 (esize.bits / 8) =
        blockAddr base ((n + 1) * esize.bytes) := by
      rw [blockAddr_add, Nat.succ_mul]
      rfl
    simp only [dramSetStep, hnext, storeElems, List.range_succ, List.foldl_append, List.foldl_cons,
      List.foldl_nil, List.map_append, List.map_cons, List.map_nil]
    rfl

theorem dramSetElementNoEndian_blockAddr {i j q : ℕ} (hi : i < m.dim esize) (hj : j < m.dim esize)
    (hq : q < esize.bytes) (x : BitVec esize.bits) :
    dramSetElementNoEndian dram (blockAddr base (i * esize.bytes)) esize x
        (blockAddr base (j * esize.bytes + q)) =
      if j = i then elem x (esize.bytes - 1 - q) 8
      else dram (blockAddr base (j * esize.bytes + q)) := by
  let addr (p : ℕ) : BitVec 128 := blockAddr base (i * esize.bytes) + BitVec.ofNat 128 p
  have haddr : ∀ p, addr p = blockAddr base (i * esize.bytes + p) := blockAddr_add base _
  have hlt : ∀ {k p}, k < m.dim esize → p < esize.bytes → k * esize.bytes + p < m.svlB := by
    intro k p hk hp
    rw [← m.dim_mul_bytes esize]
    exact offset_lt hk hp
  show Loops.storeAll addr (fun p => elem x (esize.bytes - 1 - p) 8) esize.bytes dram _ = _
  by_cases h : j = i
  · subst h
    have hinj : ∀ p < esize.bytes, ∀ p' < esize.bytes, addr p = addr p' → p = p' := by
      intro p hp p' hp' heq
      rw [haddr, haddr, blockAddr_inj base (hlt hj hp) (hlt hj hp')] at heq
      omega
    rw [if_pos rfl, ← haddr]
    exact Loops.storeAll_hit _ hinj hq dram
  · rw [if_neg h]
    apply Loops.storeAll_miss
    intro p hp heq
    rw [haddr, blockAddr_inj base (hlt hj hq) (hlt hi hp)] at heq
    exact h (offset_inj hq hp heq).1

theorem dramSetElementNoEndian_outside {addr : BitVec 128} (hout : ¬ InBlock m base addr) {i : ℕ}
    (hi : i < m.dim esize) (x : BitVec esize.bits) :
    dramSetElementNoEndian dram (blockAddr base (i * esize.bytes)) esize x addr = dram addr := by
  apply Loops.storeAll_miss
  intro p hp heq
  rw [blockAddr_add] at heq
  apply hout
  rw [inBlock_iff]
  refine ⟨_, ?_, heq⟩
  rw [← m.dim_mul_bytes esize]
  exact offset_lt hi hp

theorem storeElems_blockAddr (x : ℕ → BitVec esize.bits) (i : SliceIdx m esize) {q : ℕ}
    (hq : q < esize.bytes) :
    storeElems dram base esize x (m.dim esize) (blockAddr base (i * esize.bytes + q)) =
      elem (x i) (esize.bytes - 1 - q) 8 := by
  refine Loops.foldl_once (fun dram : DramMem => dram (blockAddr base (i * esize.bytes + q)))
    (fun _ => elem (x i) (esize.bytes - 1 - q) 8) List.nodup_range (List.mem_range.mpr i.isLt)
    ?_ ?_ dram
  · intro dram
    rw [dramSetElementNoEndian_blockAddr dram base i.isLt i.isLt hq, if_pos rfl]
  · intro j hj hne dram
    rw [dramSetElementNoEndian_blockAddr dram base (List.mem_range.mp hj) i.isLt hq,
      if_neg hne.symm]

theorem storeElems_outside {addr : BitVec 128} (hout : ¬ InBlock m base addr)
    (x : ℕ → BitVec esize.bits) :
    storeElems dram base esize x (m.dim esize) addr = dram addr := by
  refine Loops.foldl_frame (fun dram : DramMem => dram addr) ?_ dram
  intro i hi dram
  exact dramSetElementNoEndian_outside dram base hout (List.mem_range.mp hi) (x i)

end Write

section Vector

variable (s : State m) (base : BitVec 128) (vector : BitVec m.svl) (esize : ElementSize)
  (convertEndianness : Bool)

theorem dramSetVector_laneByteAddr (i : SliceIdx m esize) (b : Fin esize.bytes) :
    (dramSetVectorAsDramEndian s base vector esize convertEndianness).dram
        (laneByteAddr m esize convertEndianness base i b) =
      elem (lanes esize vector i) b 8 := by
  have hb := memByte_lt (swaps m convertEndianness) b.isLt
  simp only [dramSetVectorAsDramEndian, dramSetLoop_eq, laneByteAddr]
  rw [storeElems_blockAddr _ _ _ i hb, elem_storedElem vector convertEndianness i hb,
    memByte_memByte _ b.isLt]

/-- A store changes its block only. -/
theorem dramSetVector_outside {addr : BitVec 128} (hout : ¬ InBlock m base addr) :
    (dramSetVectorAsDramEndian s base vector esize convertEndianness).dram addr = s.dram addr := by
  simp only [dramSetVectorAsDramEndian, dramSetLoop_eq]
  exact storeElems_outside _ _ hout _

/-- Reading back what was stored. -/
theorem dramGetVector_dramSetVector :
    dramGetVectorAsZaEndian m
        (dramSetVectorAsDramEndian s base vector esize convertEndianness).dram base esize
        convertEndianness = vector := by
  apply lanes_injective esize
  funext i
  apply ext_elem esize.bits_eq
  intro b hb
  rw [elem_dramGetVectorAsZaEndian _ base convertEndianness i ⟨b, hb⟩]
  exact dramSetVector_laneByteAddr s base vector esize convertEndianness i ⟨b, hb⟩

/-- Storing what was read changes nothing. -/
theorem dramSetVector_dramGetVector :
    (dramSetVectorAsDramEndian s base
      (dramGetVectorAsZaEndian m s.dram base esize convertEndianness) esize
      convertEndianness).dram = s.dram := by
  funext addr
  by_cases h : InBlock m base addr
  · obtain ⟨i, b, rfl⟩ := (inBlock_iff_laneByteAddr esize convertEndianness base addr).mp h
    rw [dramSetVector_laneByteAddr, elem_dramGetVectorAsZaEndian]
  · exact dramSetVector_outside s base _ esize convertEndianness h

/-- A vector read depends on the bytes of its block only. -/
theorem dramGetVector_congr {dram dram' : DramMem}
    (h : ∀ addr, InBlock m base addr → dram addr = dram' addr) :
    dramGetVectorAsZaEndian m dram base esize convertEndianness =
      dramGetVectorAsZaEndian m dram' base esize convertEndianness := by
  apply lanes_injective esize
  funext i
  apply ext_elem esize.bits_eq
  intro b hb
  rw [elem_dramGetVectorAsZaEndian _ base convertEndianness i ⟨b, hb⟩,
    elem_dramGetVectorAsZaEndian _ base convertEndianness i ⟨b, hb⟩]
  exact h _ ((inBlock_iff_laneByteAddr esize convertEndianness base _).mpr ⟨i, ⟨b, hb⟩, rfl⟩)

/-- The elements are captured in the order they were stored, the first one at
the most significant end. -/
theorem lanes_wbSvlVector (i : SliceIdx m esize) :
    lanes esize (dramSetVectorAsDramEndian s base vector esize convertEndianness).wbSvlVector
        ⟨m.dim esize - 1 - i, by have := i.isLt; omega⟩ =
      storedElem m vector esize convertEndianness i := by
  have hlen := length_wbElems m s.dram base vector esize convertEndianness
  have hlt : m.dim esize - 1 - i <
      (dramSetLoop m s.dram base vector esize convertEndianness).wbElems.length := by
    have := i.isLt
    omega
  have hidx : m.dim esize - 1 - (m.dim esize - 1 - i) = i := by
    have := i.isLt
    omega
  simp only [lanes, dramSetVectorAsDramEndian, elem_cast, concatenate]
  rw [elem_concat _ hlt]
  simp only [dramSetLoop_eq, List.getElem_map, List.getElem_range, List.length_map,
    List.length_range, hidx]

/-- Read from its most significant byte, the captured vector is the block. -/
theorem dramSetVector_captured {k : ℕ} (hk : k < m.svlB) :
    (dramSetVectorAsDramEndian s base vector esize convertEndianness).dram (blockAddr base k) =
      getElementInVectorFromMSB
        (dramSetVectorAsDramEndian s base vector esize convertEndianness).wbSvlVector k 8
        m.svl := by
  have hpos := esize.bytes_pos
  have hdim := m.dim_mul_bytes esize
  -- `k` is byte `q` of element `i`
  obtain ⟨i, q, hq, rfl⟩ : ∃ (i : SliceIdx m esize) (q : ℕ), q < esize.bytes ∧
      k = i * esize.bytes + q := by
    refine ⟨⟨k / esize.bytes, ?_⟩, k % esize.bytes, Nat.mod_lt k hpos,
      (Nat.div_add_mod' k esize.bytes).symm⟩
    rwa [Nat.div_lt_iff_lt_mul hpos, hdim]
  have hmirror := offset_mirror i.isLt hq
  rw [hdim] at hmirror
  have hlt : esize.bytes - 1 - q < esize.bytes := by omega
  have hbyte := elem_lanes (dramSetVectorAsDramEndian s base vector esize
    convertEndianness).wbSvlVector ⟨m.dim esize - 1 - i, by have := i.isLt; omega⟩
    ⟨esize.bytes - 1 - q, hlt⟩
  rw [lanes_wbSvlVector] at hbyte
  show _ = elem _ (m.svlB - 1 - (i * esize.bytes + q)) 8
  rw [hmirror, ← hbyte]
  simp only [dramSetVectorAsDramEndian, dramSetLoop_eq]
  exact storeElems_blockAddr _ _ _ i hq

end Vector

end ArmSmeIla
