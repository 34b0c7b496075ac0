import ArmSmeIla.Architecture.Machine

/-!
# Data that is moved byte by byte

Instructions that only move data treat its bytes alike, whatever they are: a
relation between bytes that zero has to itself is kept by all of them. Nothing
that steers an execution (modes, predicates, addresses, faults) is computed from
data at all.
-/

namespace ArmSmeIla

/-- Instructions that move bytes of vectors, of ZA and of memory, or leave them
alone. The others compute with elements. -/
def Instr.moves : Instr → Bool
  | .addha _ | .addva _ | .integerOuterProduct _ _ | .wideningOuterProduct _ => false
  | .fmopa _ | .fmops _ | .sclamp _ | .uclamp _ => false
  | _ => true

namespace Arch

open Packing

variable {m : ArmSme} {esize : ElementSize} {R : BitVec 8 → BitVec 8 → Prop}

/-! ## Vectors -/

variable (R)

/-- The bytes of two vectors are related one by one. -/
def VectorRel (v v' : BitVec m.svl) : Prop := ∀ j < m.svlB, R (elem v j 8) (elem v' j 8)

/-- The same for two elements. -/
def ElementRel (esize : ElementSize) (x x' : BitVec esize.bits) : Prop :=
  ∀ b : Fin esize.bytes, R (elem x b 8) (elem x' b 8)

variable {R}

/-- Vectors are related when their elements of any one size are. -/
theorem vectorRel_iff (esize : ElementSize) {v v' : BitVec m.svl} :
    VectorRel R v v' ↔
      ∀ i : SliceIdx m esize, ElementRel R esize (lanes esize v i) (lanes esize v' i) := by
  constructor
  · intro h i b
    rw [elem_lanes, elem_lanes]
    exact h _ ((m.dim_mul_bytes esize).subst (offset_lt i.isLt b.isLt))
  · intro h j hj
    have hdiv : j / esize.bytes < m.dim esize := by
      rwa [Nat.div_lt_iff_lt_mul esize.bytes_pos, m.dim_mul_bytes]
    have hbyte := h ⟨j / esize.bytes, hdiv⟩ ⟨j % esize.bytes, Nat.mod_lt j esize.bytes_pos⟩
    rw [elem_lanes, elem_lanes] at hbyte
    simpa only [Nat.div_add_mod'] using hbyte

theorem vectorRel_vectorOf {f f' : SliceIdx m esize → BitVec esize.bits} :
    VectorRel R (vectorOf esize f) (vectorOf esize f') ↔ ∀ i, ElementRel R esize (f i) (f' i) := by
  rw [vectorRel_iff esize, lanes_vectorOf, lanes_vectorOf]

theorem VectorRel.zero (h0 : R 0 0) : VectorRel R (0 : BitVec m.svl) 0 := by
  intro j _
  rw [show (0 : BitVec m.svl) = 0#m.svl from rfl, elem_zero_vector]
  exact h0

theorem ElementRel.zero (h0 : R 0 0) : ElementRel R esize 0 0 := by
  intro b
  rw [show (0 : BitVec esize.bits) = BitVec.ofNat esize.bits 0 from rfl, elem_zero_vector]
  exact h0

theorem ElementRel.ite {p : Bool} {x x' y y' : BitVec esize.bits} (hx : ElementRel R esize x x')
    (hy : ElementRel R esize y y') :
    ElementRel R esize (if p then x else y) (if p then x' else y') := by
  cases p with
  | true => exact hx
  | false => exact hy

/-- A swap of the halves of a quadword is a permutation of its bytes. -/
theorem elem_swapHalves (x : BitVec 128) {b : ℕ} (hb : b < 16) :
    elem (swapHalves x) b 8 = elem x ((b + 8) % 16) 8 := by
  have hhalf : ∀ (y : BitVec 128) {i j : ℕ}, j < 8 → elem (elem y i 64) j 8 = elem y (i * 8 + j) 8 :=
    fun y i j hj => elem_elem (e := 8) y i 8 j hj
  rcases Nat.lt_or_ge b 8 with hlow | hhigh
  · have h := congrArg (elem · b 8) (elem_swapHalves_low x)
    rw [hhalf _ hlow, hhalf _ hlow, Nat.zero_mul, Nat.zero_add] at h
    rw [h, Nat.mod_eq_of_lt (by omega), Nat.add_comm b 8]
  · obtain ⟨j, rfl⟩ := Nat.exists_eq_add_of_le hhigh
    have h := congrArg (elem · j 8) (elem_swapHalves_high x)
    rw [hhalf _ (by omega), hhalf _ (by omega), Nat.zero_mul, Nat.zero_add, Nat.one_mul] at h
    rw [h, show (8 + j + 8) % 16 = j by omega]

theorem ElementRel.swapHalves {x x' : BitVec 128} (h : ElementRel R .quad x x') :
    ElementRel R .quad (swapHalves x) (swapHalves x') := by
  intro b
  have hb : (b : ℕ) < 16 := b.isLt
  show R (elem (w := 128) _ b 8) (elem (w := 128) _ b 8)
  rw [elem_swapHalves x hb, elem_swapHalves x' hb]
  exact h ⟨((b : ℕ) + 8) % 16, Nat.mod_lt _ (by decide)⟩

/-! ## Memory -/

theorem offsetOf_lt (esize : ElementSize) (lowestFirst : Bool) {j : ℕ} (hj : j < m.svlB) :
    offsetOf esize lowestFirst j < m.svlB := by
  unfold offsetOf
  split
  · exact hj
  · have hdiv : j / esize.bytes < m.dim esize := by
      rwa [Nat.div_lt_iff_lt_mul esize.bytes_pos, m.dim_mul_bytes]
    have hmirror : esize.bytes - 1 - j % esize.bytes < esize.bytes := by
      have := esize.bytes_pos
      omega
    exact (m.dim_mul_bytes esize).subst (offset_lt hdiv hmirror)

theorem vectorRel_loadVector {mem mem' : BitVec 128 → BitVec 8}
    (h : ∀ addr, R (mem addr) (mem' addr)) (base : BitVec 128) (lowestFirst : Bool) :
    VectorRel R (loadVector m mem base esize lowestFirst)
      (loadVector m mem' base esize lowestFirst) := by
  refine vectorRel_vectorOf.mpr fun i b => ?_
  have hb : (b : ℕ) = 0 := Nat.lt_one_iff.mp b.isLt
  rw [hb]
  exact (elem_self _).symm ▸ (elem_self _).symm ▸ h _

theorem rel_storeVector {mem mem' : BitVec 128 → BitVec 8} {v v' : BitVec m.svl}
    (h : ∀ addr, R (mem addr) (mem' addr)) (hv : VectorRel R v v') (base : BitVec 128)
    (lowestFirst : Bool) (isActive : ℕ → Bool) (addr : BitVec 128) :
    R (storeVector mem base esize lowestFirst isActive v addr)
      (storeVector mem' base esize lowestFirst isActive v' addr) := by
  unfold storeVector
  dsimp only
  split
  case isTrue hin => exact hv _ (offsetOf_lt esize lowestFirst hin.1)
  case isFalse => exact h addr

/-! ## ZA -/

section Za

variable {tile : TileIdx esize} {za za' : ZaArray m}

theorem vectorRel_slice (h : ∀ row, VectorRel R (za row) (za' row)) (isVertical : Bool)
    (k : SliceIdx m esize) :
    VectorRel R (slice isVertical tile k za) (slice isVertical tile k za') := by
  refine vectorRel_vectorOf.mpr fun i => ?_
  exact .ite ((vectorRel_iff esize).mp (h _) k) ((vectorRel_iff esize).mp (h _) i)

theorem vectorRel_mapTile {f f' : SliceIdx m esize → SliceIdx m esize → BitVec esize.bits →
      BitVec esize.bits} (h : ∀ row, VectorRel R (za row) (za' row))
    (hf : ∀ r c old old', ElementRel R esize old old' →
      ElementRel R esize (f r c old) (f' r c old')) (row : RowIdx m) :
    VectorRel R (mapTile tile f za row) (mapTile tile f' za' row) := by
  unfold mapTile
  split
  · exact vectorRel_vectorOf.mpr fun c => hf _ c _ _ ((vectorRel_iff esize).mp (h row) c)
  · exact h row

theorem vectorRel_mapSlice {f f' : SliceIdx m esize → BitVec esize.bits → BitVec esize.bits}
    (h : ∀ row, VectorRel R (za row) (za' row))
    (hf : ∀ i old old', ElementRel R esize old old' → ElementRel R esize (f i old) (f' i old'))
    (isVertical : Bool) (k : SliceIdx m esize) (row : RowIdx m) :
    VectorRel R (mapSlice isVertical tile k f za row) (mapSlice isVertical tile k f' za' row) := by
  refine vectorRel_mapTile h (fun r c old old' hold => ?_) row
  by_cases hk : (if isVertical then c else r) = k
  · rw [if_pos hk, if_pos hk]
    exact hf _ _ _ hold
  · rw [if_neg hk, if_neg hk]
    exact hold

end Za

/-! ## Steps -/

variable (R) in
/-- Bytes of data are related, all else is the same. -/
structure Bytewise (a b : State m) : Prop where
  za : ∀ row, VectorRel R (a.za row) (b.za row)
  z : ∀ n, VectorRel R (a.z n) (b.z n)
  mem : ∀ addr, R (a.mem addr) (b.mem addr)
  sm : a.sm = b.sm
  zaOn : a.zaOn = b.zaOn
  p : a.p = b.p
  x : a.x = b.x
  sp : a.sp = b.sp
  faults : a.faults = b.faults

namespace Bytewise

variable {a b : State m} (h : Bytewise R a b) (inp : Inputs m)
include h

theorem pReg (n : BitVec 4) : a.pReg n = b.pReg n := congrFun h.p _

theorem xReg (n : BitVec 5) : a.xReg n = b.xReg n := by
  simp only [State.xReg, h.x]

theorem xRegSp (n : BitVec 5) : a.xRegSp n = b.xRegSp n := by
  simp only [State.xRegSp, h.x, h.sp]

theorem index (n : BitVec 5) (imm : ℕ) : a.index esize n imm = b.index esize n imm := by
  simp only [State.index, State.wSum, h.xReg]

theorem sliceAt : a.sliceAt inp esize = b.sliceAt inp esize := h.index _ _

theorem typedBase : a.typedBase inp esize = b.typedBase inp esize := by
  simp only [State.typedBase, h.xReg, h.xRegSp]

theorem rowBase : a.rowBase inp = b.rowBase inp := by
  simp only [State.rowBase, h.xRegSp]

theorem rowAt : a.rowAt inp = b.rowAt inp := h.index _ _

theorem enabled_eq (i : Instr) : enabled a inp i = enabled b inp i := by
  unfold enabled
  rw [h.sm, h.zaOn]

theorem faulting_eq (i : Instr) : faulting a inp i = faulting b inp i := by
  unfold faulting
  cases i with
  | ld1 esize | st1 esize => simp only [h.sp, h.pReg]
  | ldr | str => simp only [h.xRegSp]
  | _ => rfl

theorem newP_eq (i : Instr) : a.newP inp i = b.newP inp i := by
  unfold State.newP
  cases i with
  | psel esize => simp only [State.setP, h.index, h.pReg, h.p]
  | smstart | smstop => rfl
  | _ => exact h.p

theorem setX_eq (n : BitVec 5) (val : BitVec 64) :
    (a.setX n val).x = (b.setX n val).x ∧ (a.setX n val).sp = (b.setX n val).sp := by
  unfold State.setX
  split <;> simp [h.x, h.sp]

theorem setXSp_eq (n : BitVec 5) (val : BitVec 64) :
    (a.setXSp n val).x = (b.setXSp n val).x ∧ (a.setXSp n val).sp = (b.setXSp n val).sp := by
  unfold State.setXSp
  split <;> simp [h.x, h.sp]

theorem newX_eq (i : Instr) : (newX a inp i).x = (newX b inp i).x ∧
    (newX a inp i).sp = (newX b inp i).sp := by
  cases i with
  | addspl | addsvl =>
      simp only [newX, h.xRegSp]
      exact h.setXSp_eq _ _
  | rdsvl => exact h.setX_eq _ _
  | _ => exact ⟨h.x, h.sp⟩

/-- A store writes bytes of ZA, and which ones it writes is not for data to say. -/
theorem newMem (i : Instr) (addr : BitVec 128) : R (newMem a inp i addr) (newMem b inp i addr) := by
  unfold Arch.newMem
  cases i with
  | st1 esize =>
      dsimp only
      rw [h.typedBase, h.sliceAt, h.pReg]
      exact rel_storeVector h.mem (vectorRel_slice h.za _ _) _ _ _ addr
  | str =>
      dsimp only
      rw [h.rowBase, h.rowAt]
      exact rel_storeVector h.mem (h.za _) _ _ _ addr
  | _ => exact h.mem addr

variable (h0 : R 0 0) {i : Instr} (hi : i.moves = true)
include h0 hi

theorem newZa (fp fp' : FpFunctions) (row : RowIdx m) :
    VectorRel R (a.newZa inp fp i row) (b.newZa inp fp' i row) := by
  unfold State.newZa
  cases i with
  | smstart => exact .zero h0
  | movaV2T esize =>
      dsimp only
      rw [h.sliceAt]
      refine vectorRel_mapSlice h.za (fun i old old' hold => ?_) _ _ row
      rw [h.pReg]
      exact .ite ((vectorRel_iff esize).mp (h.z _) i) hold
  | zero =>
      dsimp only
      split
      · exact .zero h0
      · exact h.za row
  | ld1 esize =>
      dsimp only
      rw [h.sliceAt, h.typedBase]
      refine vectorRel_mapSlice h.za (fun i old old' _ => ?_) _ _ row
      rw [h.pReg]
      exact .ite ((vectorRel_iff esize).mp (vectorRel_loadVector h.mem _ _) i) (.zero h0)
  | ldr =>
      dsimp only
      rw [h.rowAt, h.rowBase, Function.update_apply, Function.update_apply]
      split
      · exact vectorRel_loadVector h.mem _ _
      · exact h.za row
  | addha | addva | integerOuterProduct | wideningOuterProduct | fmopa | fmops => cases hi
  | _ => exact h.za row

theorem newZ (n : Fin 32) : VectorRel R (a.newZ inp i n) (b.newZ inp i n) := by
  have hset : ∀ {v v' : BitVec m.svl} (zd : BitVec 5), VectorRel R v v' →
      VectorRel R ((a.setZ zd v).z n) ((b.setZ zd v').z n) := by
    intro v v' zd hv
    show VectorRel R (Function.update a.z zd.toFin v n) (Function.update b.z zd.toFin v' n)
    rw [Function.update_apply, Function.update_apply]
    split
    · exact hv
    · exact h.z n
  unfold State.newZ
  cases i with
  | smstart | smstop => exact .zero h0
  | movaT2V esize =>
      refine hset _ (vectorRel_vectorOf.mpr fun i => ?_)
      rw [h.sliceAt, h.pReg]
      have hsource :
          VectorRel R (slice inp.hv (tileOf esize inp.zan) (b.sliceAt inp esize) a.za)
            (slice inp.hv (tileOf esize inp.zan) (b.sliceAt inp esize) b.za) :=
        vectorRel_slice h.za inp.hv _
      exact .ite ((vectorRel_iff esize).mp hsource i) ((vectorRel_iff esize).mp (h.z _) i)
  | revd =>
      refine hset _ (vectorRel_vectorOf.mpr fun i => ?_)
      rw [h.pReg]
      exact .ite (.swapHalves ((vectorRel_iff .quad).mp (h.z _) i))
        ((vectorRel_iff .quad).mp (h.z _) i)
  | sclamp | uclamp => cases hi
  | _ => exact h.z n

end Bytewise

/-- Instructions that move data keep every relation between bytes; all others
keep the one that says nothing. -/
theorem Bytewise.exec {a b : State m} (h : Bytewise R a b) (h0 : R 0 0) (inp : Inputs m) {i : Instr}
    (hi : i.moves = true ∨ ∀ x y, R x y) (fp fp' : FpFunctions) :
    Bytewise R (exec fp i inp a) (exec fp' i inp b) where
  za row := by
    rcases hi with hi | hall
    · exact h.newZa inp h0 hi fp fp' row
    · exact fun _ _ => hall _ _
  z n := by
    rcases hi with hi | hall
    · exact h.newZ inp h0 hi n
    · exact fun _ _ => hall _ _
  mem addr := h.newMem inp i addr
  sm := congrArg (newMode i) h.sm
  zaOn := congrArg (newMode i) h.zaOn
  p := h.newP_eq inp i
  x := (h.newX_eq inp i).1
  sp := (h.newX_eq inp i).2
  faults := by
    show (if faulting a inp i then _ else _) = (if faulting b inp i then _ else _)
    rw [h.faulting_eq, h.faults]

end Arch

end ArmSmeIla
