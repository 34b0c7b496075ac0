import ArmSmeIla.Architecture.Refinement

/-!
# Block transfers through a tile

Loads fill lines of a tile, stores empty lines of it. With the same orientation
on both sides that copies blocks of DRAM; with different ones it transposes a
matrix of elements. The arguments are about the architectural machine.
-/

namespace ArmSmeIla

namespace Arch

open Packing

variable {m : ArmSme} {fp : FpFunctions} {esize : ElementSize} {tile : TileIdx esize}

/-! ## Slices of an array -/

@[simp]
theorem lanes_slice (isVertical : Bool) (k : SliceIdx m esize) (za : ZaArray m)
    (i : SliceIdx m esize) :
    lanes esize (slice isVertical tile k za) i =
      if isVertical then lanes esize (za (rowAt tile i)) k
      else lanes esize (za (rowAt tile k)) i := by
  rw [slice, lanes_vectorOf]

/-- The two orientations cross in one element. -/
theorem lanes_slice_cross (isVertical : Bool) (k i : SliceIdx m esize) (za : ZaArray m) :
    lanes esize (slice (!isVertical) tile k za) i = lanes esize (slice isVertical tile i za) k := by
  cases isVertical <;> simp

theorem lanes_mapTile
    (f : SliceIdx m esize → SliceIdx m esize → BitVec esize.bits → BitVec esize.bits)
    (za : ZaArray m) (r c : SliceIdx m esize) :
    lanes esize (mapTile tile f za (rowAt tile r)) c =
      f r c (lanes esize (za (rowAt tile r)) c) := by
  rw [mapTile, if_pos (tileIn_rowAt tile r), lanes_vectorOf, rowIn_rowAt]

theorem lanes_slice_mapSlice (isVertical : Bool) (k k' : SliceIdx m esize)
    (f : SliceIdx m esize → BitVec esize.bits → BitVec esize.bits) (za : ZaArray m)
    (i : SliceIdx m esize) :
    lanes esize (slice isVertical tile k' (mapSlice isVertical tile k f za)) i =
      if k' = k then f i (lanes esize (slice isVertical tile k' za) i)
      else lanes esize (slice isVertical tile k' za) i := by
  cases isVertical <;> simp [mapSlice, lanes_mapTile]

/-! ## Loads -/

/-- Transfers of whole lines of one tile, in one orientation. -/
def WholeLines (i : Instr) (esize : ElementSize) (isVertical : Bool) (tile : TileIdx esize)
    (a : State m) (ls : List (Label m)) : Prop :=
  ∀ l ∈ ls, l.1 = i ∧ tileOf esize l.2.zat = tile ∧ l.2.hv = isVertical ∧
    ∀ e < m.dim esize, active (a.pReg l.2.pg) esize e = true

variable {isVertical : Bool} {a b : State m} {ls : List (Label m)}

variable (fp) in
theorem newZa_ld1 {inp : Inputs m} (htile : tileOf esize inp.zat = tile)
    (hhv : inp.hv = isVertical) : a.newZa inp fp (.ld1 esize) =
      mapSlice isVertical tile (a.sliceAt inp esize) (fun i _ =>
        if active (a.pReg inp.pg) esize i then
          lanes esize (loadVector m a.mem (a.typedBase inp esize) esize m.dramIsLE) i
        else 0) a.za := by
  rw [← htile, ← hhv]
  rfl

variable (fp) in
theorem slice_newZa_ld1 {inp : Inputs m} (htile : tileOf esize inp.zat = tile)
    (hhv : inp.hv = isVertical) (hactive : ∀ e < m.dim esize, active (a.pReg inp.pg) esize e = true)
    (k : SliceIdx m esize) :
    slice isVertical tile k (a.newZa inp fp (.ld1 esize)) =
      if k = a.sliceAt inp esize then loadVector m a.mem (a.typedBase inp esize) esize m.dramIsLE
      else slice isVertical tile k a.za := by
  apply lanes_injective esize
  funext i
  rw [newZa_ld1 fp htile hhv, lanes_slice_mapSlice, if_pos (hactive i i.isLt)]
  split
  · rfl
  · rfl

/-- What a transfer takes its addresses and its predicate from. -/
structure SameRegisters (a b : State m) : Prop where
  p : b.p = a.p
  x : b.x = a.x
  sp : b.sp = a.sp

theorem SameRegisters.sliceAt (h : SameRegisters a b) (inp : Inputs m) (esize : ElementSize) :
    b.sliceAt inp esize = a.sliceAt inp esize := by
  simp only [State.sliceAt, State.index, State.wSum, State.xReg, h.x]

theorem SameRegisters.typedBase (h : SameRegisters a b) (inp : Inputs m) (esize : ElementSize) :
    b.typedBase inp esize = a.typedBase inp esize := by
  simp only [State.typedBase, State.xRegSp, State.xReg, h.x, h.sp]

theorem SameRegisters.wholeLines (h : SameRegisters a b) {i : Instr}
    (hls : WholeLines i esize isVertical tile a ls) : WholeLines i esize isVertical tile b ls := by
  intro l hl
  simp only [State.pReg, h.p]
  exact hls l hl

/-- Loads into different lines, each from the memory they all started with. -/
theorem loads_path (run : Path fp a ls b) (hls : WholeLines (.ld1 esize) esize isVertical tile a ls)
    (lines : ls.Pairwise fun l l' => a.sliceAt l.2 esize ≠ a.sliceAt l'.2 esize) :
    SameRegisters a b ∧ b.mem = a.mem ∧
      (∀ k, (∀ l ∈ ls, k ≠ a.sliceAt l.2 esize) →
        slice isVertical tile k b.za = slice isVertical tile k a.za) ∧
      ∀ l ∈ ls, slice isVertical tile (a.sliceAt l.2 esize) b.za =
        loadVector m a.mem (a.typedBase l.2 esize) esize m.dramIsLE := by
  induction run with
  | nil a =>
      exact ⟨⟨rfl, rfl, rfl⟩, rfl, fun _ _ => rfl, fun _ hl => absurd hl List.not_mem_nil⟩
  | @cons a mid b l ls h rest ih =>
      rcases h with ⟨-, rfl⟩
      rcases l with ⟨i, inp⟩
      obtain ⟨rfl, htile, hhv, hactive⟩ := hls _ List.mem_cons_self
      rcases List.pairwise_cons.mp lines with ⟨hfirst, hlines⟩
      have hslice : ∀ k, slice isVertical tile k (exec fp (.ld1 esize) inp a).za =
          if k = a.sliceAt inp esize then
            loadVector m a.mem (a.typedBase inp esize) esize m.dramIsLE
          else slice isVertical tile k a.za := slice_newZa_ld1 fp htile hhv hactive
      obtain ⟨hregs, hmem, hother, hloaded⟩ :=
        ih (fun l hl => hls l (List.mem_cons_of_mem _ hl)) hlines
      refine ⟨⟨hregs.p, hregs.x, hregs.sp⟩, hmem, ?_, ?_⟩
      · intro k hk
        rw [hother k fun l hl => hk l (List.mem_cons_of_mem _ hl), hslice,
          if_neg (hk _ List.mem_cons_self)]
      · intro l hl
        rcases List.mem_cons.mp hl with rfl | hl
        · exact (hother _ hfirst).trans ((hslice _).trans (if_pos rfl))
        · exact hloaded l hl

/-! ## Stores -/

/-- Byte `d` of the block a whole line is stored in. -/
theorem storeVector_whole {mem : BitVec 128 → BitVec 8} {base addr : BitVec 128}
    {lowestFirst : Bool} {isActive : ℕ → Bool} (hactive : ∀ e < m.dim esize, isActive e = true)
    (v : BitVec m.svl) :
    storeVector mem base esize lowestFirst isActive v addr =
      if InBlock m base addr then elem v (offsetOf esize lowestFirst (addr - base).toNat) 8
      else mem addr := by
  unfold storeVector InBlock
  refine if_congr (and_iff_left_of_imp fun hd => hactive _ ?_) rfl rfl
  rw [Nat.div_lt_iff_lt_mul esize.bytes_pos, m.dim_mul_bytes]
  exact hd

/-- Stores into disjoint blocks, each of a line of the array they all see. -/
theorem stores_path (run : Path fp a ls b)
    (hls : WholeLines (.st1 esize) esize isVertical tile a ls)
    (blocks : ls.Pairwise fun l l' => ∀ addr, InBlock m (a.typedBase l.2 esize) addr →
      ¬ InBlock m (a.typedBase l'.2 esize) addr) :
    (∀ addr, (∀ l ∈ ls, ¬ InBlock m (a.typedBase l.2 esize) addr) → b.mem addr = a.mem addr) ∧
      ∀ l ∈ ls, ∀ addr, InBlock m (a.typedBase l.2 esize) addr →
        b.mem addr = elem (slice isVertical tile (a.sliceAt l.2 esize) a.za)
          (offsetOf esize m.dramIsLE (addr - a.typedBase l.2 esize).toNat) 8 := by
  induction run with
  | nil a => exact ⟨fun _ _ => rfl, fun _ hl => absurd hl List.not_mem_nil⟩
  | @cons a mid b l ls h rest ih =>
      rcases h with ⟨-, rfl⟩
      rcases l with ⟨i, inp⟩
      obtain ⟨rfl, htile, hhv, hactive⟩ := hls _ List.mem_cons_self
      rcases List.pairwise_cons.mp blocks with ⟨hfirst, hblocks⟩
      have hmem : ∀ addr, (exec fp (.st1 esize) inp a).mem addr =
          if InBlock m (a.typedBase inp esize) addr then
            elem (slice isVertical tile (a.sliceAt inp esize) a.za)
              (offsetOf esize m.dramIsLE (addr - a.typedBase inp esize).toNat) 8
          else a.mem addr := by
        intro addr
        rw [← htile, ← hhv]
        exact storeVector_whole hactive _
      obtain ⟨hother, hstored⟩ := ih (fun l hl => hls l (List.mem_cons_of_mem _ hl)) hblocks
      constructor
      · intro addr haddr
        rw [hother addr fun l hl => haddr l (List.mem_cons_of_mem _ hl), hmem,
          if_neg (haddr _ List.mem_cons_self)]
      · intro l hl addr haddr
        rcases List.mem_cons.mp hl with rfl | hl
        · rw [hother addr fun l hl => hfirst l hl addr haddr, hmem, if_pos haddr]
        · exact hstored l hl addr haddr

/-! ## Bytes of elements -/

theorem inBlock_blockAddr (base : BitVec 128) {j : ℕ} (hj : j < m.svlB) :
    InBlock m base (blockAddr base j) ∧ (blockAddr base j - base).toNat = j := by
  have hsub : (blockAddr base j - base).toNat = j := by
    rw [blockAddr, BitVec.add_comm, BitVec.add_sub_cancel, BitVec.toNat_ofNat,
      Nat.mod_eq_of_lt (lt_dramAddr hj.le)]
  exact ⟨hsub.trans_lt hj, hsub⟩

/-- A byte of memory in the element it is loaded into. -/
theorem elem_lanes_loadVector (mem : BitVec 128 → BitVec 8) (base : BitVec 128)
    (lowestFirst : Bool) (i : SliceIdx m esize) {j : ℕ} (hj : j < esize.bytes) :
    elem (lanes esize (loadVector m mem base esize lowestFirst) i) (memByte esize lowestFirst j) 8 =
      mem (blockAddr base (i * esize.bytes + j)) := by
  have hb := memByte_lt lowestFirst hj
  have hlt : i * esize.bytes + memByte esize lowestFirst j < m.svlB :=
    m.dim_mul_bytes esize ▸ offset_lt i.isLt hb
  rw [elem_lanes _ i ⟨_, hb⟩, elem_loadVector _ _ _ _ hlt, offsetOf_eq _ _ _ hb,
    memByte_memByte _ hj]
  rfl

/-- A stored byte in the element it comes from. -/
theorem elem_offsetOf (v : BitVec m.svl) (base : BitVec 128) (lowestFirst : Bool)
    (i : SliceIdx m esize) {j : ℕ} (hj : j < esize.bytes) :
    elem v (offsetOf esize lowestFirst (blockAddr base (i * esize.bytes + j) - base).toNat) 8 =
      elem (lanes esize v i) (memByte esize lowestFirst j) 8 := by
  have hb := memByte_lt lowestFirst hj
  have hlt : i * esize.bytes + j < m.svlB := m.dim_mul_bytes esize ▸ offset_lt i.isLt hj
  rw [(inBlock_blockAddr base hlt).2, offsetOf_eq _ _ _ hj, elem_lanes _ i ⟨_, hb⟩]

/-! ## Loads, then stores -/

/-- A stored byte, in the element it comes from, is the loaded byte of the same
element. -/
theorem transfers_path {isVertical' : Bool} {loads stores : List (Label m)}
    (run : Path fp a (loads ++ stores) b)
    (hloads : WholeLines (.ld1 esize) esize isVertical tile a loads)
    (hstores : WholeLines (.st1 esize) esize isVertical' tile a stores)
    (lines : loads.Pairwise fun l l' => a.sliceAt l.2 esize ≠ a.sliceAt l'.2 esize)
    (blocks : stores.Pairwise fun l l' => ∀ addr, InBlock m (a.typedBase l.2 esize) addr →
      ¬ InBlock m (a.typedBase l'.2 esize) addr) :
    (∀ ld ∈ loads, ∀ st ∈ stores, ∀ j < esize.bytes,
      (isVertical' = isVertical → a.sliceAt st.2 esize = a.sliceAt ld.2 esize →
        ∀ i < m.dim esize, b.mem (blockAddr (a.typedBase st.2 esize) (i * esize.bytes + j)) =
          a.mem (blockAddr (a.typedBase ld.2 esize) (i * esize.bytes + j))) ∧
      (isVertical' ≠ isVertical →
        b.mem (blockAddr (a.typedBase st.2 esize) (a.sliceAt ld.2 esize * esize.bytes + j)) =
          a.mem (blockAddr (a.typedBase ld.2 esize) (a.sliceAt st.2 esize * esize.bytes + j)))) ∧
    ∀ addr, (∀ st ∈ stores, ¬ InBlock m (a.typedBase st.2 esize) addr) →
      b.mem addr = a.mem addr := by
  rcases Runs.append_iff.mp run with ⟨mid, runLoads, runStores⟩
  obtain ⟨hregs, hmem, -, hloaded⟩ := loads_path runLoads hloads lines
  simp only [← hregs.typedBase] at blocks
  obtain ⟨hother, hstored⟩ := stores_path runStores (hregs.wholeLines hstores) blocks
  simp only [hregs.typedBase, hregs.sliceAt] at hother hstored
  have hbyte : ∀ st ∈ stores, ∀ (i : SliceIdx m esize), ∀ j < esize.bytes,
      b.mem (blockAddr (a.typedBase st.2 esize) (i * esize.bytes + j)) =
        elem (lanes esize (slice isVertical' tile (a.sliceAt st.2 esize) mid.za) i)
          (memByte esize m.dramIsLE j) 8 := by
    intro st hst i j hj
    have hlt : i * esize.bytes + j < m.svlB := m.dim_mul_bytes esize ▸ offset_lt i.isLt hj
    rw [hstored st hst _ (inBlock_blockAddr _ hlt).1, elem_offsetOf _ _ _ _ hj]
  constructor
  · intro ld hld st hst j hj
    constructor
    · rintro rfl hsame i hi
      rw [hbyte st hst ⟨i, hi⟩ j hj, hsame, hloaded ld hld]
      exact elem_lanes_loadVector a.mem _ m.dramIsLE ⟨i, hi⟩ hj
    · intro hne
      obtain rfl : isVertical' = !isVertical := Bool.eq_not_of_ne hne
      rw [hbyte st hst _ j hj, lanes_slice_cross, hloaded ld hld]
      exact elem_lanes_loadVector a.mem _ m.dramIsLE _ hj
  · intro addr haddr
    rw [hother addr haddr, hmem]

end Arch

open Arch

variable {m : ArmSme} {esize : ElementSize}

/-! ## Paths of the model -/

/-- The line of its tile that a transfer selects. -/
def lineOf (s : State m) (esize : ElementSize) (l : Label m) : SliceIdx m esize :=
  sliceOf m esize (sliceIdx s l.2 esize)

/-- The DRAM address it starts at. -/
def baseOf (s : State m) (esize : ElementSize) (l : Label m) : BitVec 128 :=
  typedBaseAddr s l.2 esize

/-- Steps of one instruction on one tile and in one orientation, with every
element active. -/
def WholeTransfers (i : Instr) (esize : ElementSize) (isVertical : Bool) (tile : TileIdx esize)
    (s : State m) (ls : List (Label m)) : Prop :=
  ∀ l ∈ ls, l.1 = i ∧ tileOf esize l.2.zat = tile ∧ l.2.hv = isVertical ∧
    ∀ e < m.dim esize, (getPredicateRegister s l.2.pg).getLsbD (e * esize.bytes) = true

theorem WholeTransfers.shown {i : Instr} {isVertical : Bool} {tile : TileIdx esize} {s : State m}
    {ls : List (Label m)} (h : WholeTransfers i esize isVertical tile s ls) (n : ℕ) :
    WholeLines i esize isVertical tile (view s n) ls := by
  intro l hl
  obtain ⟨hi, htile, hhv, hactive⟩ := h l hl
  refine ⟨hi, htile, hhv, fun e he => ?_⟩
  rw [view_pReg]
  exact hactive e he

/-- Loads into different lines of a tile, then stores from the tile into
disjoint blocks. In one orientation a store copies what was loaded into its
line; in the other, element by element, it transposes. Nothing else of DRAM
changes, and the loaded blocks may overlap the stored ones. -/
theorem block_transfer (fp : FpFunctions) {isVertical isVertical' : Bool} {tile : TileIdx esize}
    {s t : State m} {loads stores : List (Label m)} (run : Path fp s (loads ++ stores) t)
    (hloads : WholeTransfers (.ld1 esize) esize isVertical tile s loads)
    (hstores : WholeTransfers (.st1 esize) esize isVertical' tile s stores)
    (lines : loads.Pairwise fun l l' => lineOf s esize l ≠ lineOf s esize l')
    (blocks : stores.Pairwise fun l l' => ∀ addr, InBlock m (baseOf s esize l) addr →
      ¬ InBlock m (baseOf s esize l') addr) :
    (∀ ld ∈ loads, ∀ st ∈ stores, ∀ j < esize.bytes,
      (isVertical' = isVertical → lineOf s esize st = lineOf s esize ld → ∀ i < m.dim esize,
        t.dram (blockAddr (baseOf s esize st) (i * esize.bytes + j)) =
          s.dram (blockAddr (baseOf s esize ld) (i * esize.bytes + j))) ∧
      (isVertical' ≠ isVertical →
        t.dram (blockAddr (baseOf s esize st) (lineOf s esize ld * esize.bytes + j)) =
          s.dram (blockAddr (baseOf s esize ld) (lineOf s esize st * esize.bytes + j)))) ∧
    ∀ addr, (∀ st ∈ stores, ¬ InBlock m (baseOf s esize st) addr) → t.dram addr = s.dram addr := by
  have hline : ∀ l, lineOf s esize l = (view s s.faults.toNat).sliceAt l.2 esize := fun l =>
    (view_sliceAt s _ l.2 esize).symm
  have hbase : ∀ l, baseOf s esize l = (view s s.faults.toNat).typedBase l.2 esize := fun l =>
    (view_typedBase s _ l.2 esize).symm
  simp only [hline] at lines ⊢
  simp only [hbase] at blocks ⊢
  rcases (refines_view s).path run with ⟨b, hrun, hb⟩
  have hdram : t.dram = b.mem := (congrArg Arch.State.mem hb.shown).symm
  rw [hdram]
  exact transfers_path hrun (hloads.shown _) (hstores.shown _) lines blocks

/-- Two rows are loaded and two columns stored: element 1 of column 0 is
element 0 of row 1. -/
theorem block_transfer_word :
    let inp : Inputs smeDramLE :=
      { (default : Inputs smeDramLE) with cmd := tempOpcode, rm := 31, rs := 31 }
    let s : State smeDramLE :=
      { (default : State smeDramLE) with
        pstateSm := true, pstateZa := true, pRegs := fun _ => 0xFFFF
        gprs := fun i => BitVec.ofNat 64 (16 * i), dram := fun addr => addr.setWidth 8 }
    let loads : List (Label smeDramLE) :=
      [(.ld1 .word, { inp with rn := 1 }), (.ld1 .word, { inp with rn := 2, imm := 1 })]
    let stores : List (Label smeDramLE) :=
      [(.st1 .word, { inp with hv := true, rn := 3 }),
        (.st1 .word, { inp with hv := true, rn := 4, imm := 1 })]
    ∀ j < 4, (execAll default (loads ++ stores) s).dram (blockAddr 48 (1 * 4 + j)) =
      BitVec.ofNat 8 (32 + j) := by
  intro inp s loads stores j hj
  have run : Path default s (loads ++ stores) (execAll default (loads ++ stores) s) :=
    .cons ⟨rfl, rfl⟩ (.cons ⟨rfl, rfl⟩ (.cons ⟨rfl, rfl⟩ (.cons ⟨rfl, rfl⟩ (.nil _))))
  have hactive : ∀ e < 4, (0xFFFF : BitVec 16).getLsbD (e * 4) = true := by decide
  have hloads : WholeTransfers (.ld1 .word) .word false (tileOf .word inp.zat) s loads := by
    intro l hl
    rcases List.mem_pair.mp hl with rfl | rfl <;> refine ⟨rfl, rfl, rfl, ?_⟩ <;>
      rw [getPredicateRegister_eq] <;> exact hactive
  have hstores : WholeTransfers (.st1 .word) .word true (tileOf .word inp.zat) s stores := by
    intro l hl
    rcases List.mem_pair.mp hl with rfl | rfl <;> refine ⟨rfl, rfl, rfl, ?_⟩ <;>
      rw [getPredicateRegister_eq] <;> exact hactive
  have hlines : loads.Pairwise fun l l' => lineOf s .word l ≠ lineOf s .word l' := by
    decide
  have hblocks : stores.Pairwise fun l l' => ∀ addr, InBlock smeDramLE (baseOf s .word l) addr →
      ¬ InBlock smeDramLE (baseOf s .word l') addr := by
    have h0 : baseOf s .word stores[0] = 48#128 := by decide
    have h1 : baseOf s .word stores[1] = 64#128 := by decide
    refine List.pairwise_pair.mpr fun addr h h' => ?_
    have hlt : (addr - 48#128).toNat < 16 := h0 ▸ h
    have hlt' : (addr - 64#128).toNat < 16 := h1 ▸ h'
    rw [BitVec.toNat_sub] at hlt hlt'
    simp only [BitVec.toNat_ofNat] at hlt hlt'
    omega
  have hbytes : ∀ j < 4, s.dram (blockAddr 32 (0 * 4 + j)) = BitVec.ofNat 8 (32 + j) := by decide
  have h := (block_transfer default run hloads hstores hlines hblocks).1 loads[1] (by simp [loads])
    stores[0] (by simp [stores]) j hj
  exact (h.2 nofun).trans (hbytes j hj)

end ArmSmeIla
