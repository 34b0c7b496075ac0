import ArmSmeIla.Architecture.ZaArray
import ArmSmeIla.Properties.LaneOperations
import ArmSmeIla.Properties.TileArithmetic

/-!
# The architectural machine

What the instructions are for, in the words of the architecture: ZA is an array
of vectors, predicates are bits of elements, products and comparisons are those
of integers, indices and addresses are sums of numbers, and faults are counted.
Nothing here mentions bytes of ZA, endianness swaps of vectors or captured
writes; the float operations stay parameters.
-/

namespace ArmSmeIla.Arch

open Packing

variable {m : ArmSme}

@[ext]
structure State (m : ArmSme) where
  za : ZaArray m
  sm : Bool
  zaOn : Bool
  z : Fin 32 → BitVec m.svl
  p : Fin 16 → BitVec m.svlB
  x : Fin 31 → BitVec 64
  sp : BitVec 64
  mem : BitVec 128 → BitVec 8
  faults : ℕ

/-- A predicate has one bit for each byte; the lowest one of an element counts. -/
def active (pred : BitVec m.svlB) (esize : ElementSize) (i : ℕ) : Bool :=
  pred.getLsbD (i * esize.bytes)

/-! ## Memory -/

/-- Where byte `j` of a vector is in memory, from its base: elements go upwards,
and so do the bytes of an element if the lowest one comes first. -/
def offsetOf (esize : ElementSize) (lowestFirst : Bool) (j : ℕ) : ℕ :=
  if lowestFirst then j else j / esize.bytes * esize.bytes + (esize.bytes - 1 - j % esize.bytes)

def loadVector (m : ArmSme) (mem : BitVec 128 → BitVec 8) (base : BitVec 128)
    (esize : ElementSize) (lowestFirst : Bool) : BitVec m.svl :=
  vectorOf .byte fun j => mem (base + BitVec.ofNat 128 (offsetOf esize lowestFirst j))

/-- The active elements go to memory, all else stays. -/
def storeVector (mem : BitVec 128 → BitVec 8) (base : BitVec 128) (esize : ElementSize)
    (lowestFirst : Bool) (isActive : ℕ → Bool) (v : BitVec m.svl) : BitVec 128 → BitVec 8 :=
  fun addr =>
    let d := (addr - base).toNat
    if d < m.svlB ∧ isActive (d / esize.bytes) then elem v (offsetOf esize lowestFirst d) 8
    else mem addr

namespace State

variable (s : State m)

/-! ## Operands -/

def zReg (n : BitVec 5) : BitVec m.svl := s.z n.toFin

def pReg (n : BitVec 4) : BitVec m.svlB := s.p n.toFin

/-- `X<n>`, or zero. -/
def xReg (n : BitVec 5) : BitVec 64 := if h : n.toNat < 31 then s.x ⟨n.toNat, h⟩ else 0

/-- `X<n>`, or `SP`. -/
def xRegSp (n : BitVec 5) : BitVec 64 := if h : n.toNat < 31 then s.x ⟨n.toNat, h⟩ else s.sp

/-- A W register and an immediate, added in 32 bits. -/
def wSum (n : BitVec 5) (imm : ℕ) : ℕ := ((s.xReg n).toNat + imm) % 2 ^ 32

/-- An index among `dim` of them. -/
def index (esize : ElementSize) (n : BitVec 5) (imm : ℕ) : SliceIdx m esize :=
  ⟨s.wSum n imm % m.dim esize, Nat.mod_lt _ (m.dim_pos esize)⟩

variable (inp : Inputs m)

/-- The immediate of a slice has 4 bits for bytes, and one fewer for each
doubling of the element. -/
def sliceAt (esize : ElementSize) : SliceIdx m esize :=
  s.index esize inp.rs (inp.imm.toNat % (16 / esize.bytes))

def typedBase (esize : ElementSize) : BitVec 128 :=
  BitVec.ofNat 128 ((s.xRegSp inp.rn).toNat + (s.xReg inp.rm).toNat * esize.bytes)

def rowBase : BitVec 128 :=
  BitVec.ofNat 128 ((s.xRegSp inp.rn).toNat + inp.imm.toNat % 16 * m.svlB)

/-- The row of `LDR` and `STR`. -/
def rowAt : RowIdx m := s.index .byte inp.rv (inp.imm.toNat % 16)

/-- Row `r` and column `c` are both active. -/
def both (esize : ElementSize) (r c : ℕ) : Bool :=
  active (s.pReg inp.pn) esize r && active (s.pReg inp.pm) esize c

/-! ## Results -/

def setZ (n : BitVec 5) (v : BitVec m.svl) : State m :=
  { s with z := Function.update s.z n.toFin v }

def setP (n : BitVec 4) (v : BitVec m.svlB) : State m :=
  { s with p := Function.update s.p n.toFin v }

/-- Index 31 is disregarded. -/
def setX (n : BitVec 5) (v : BitVec 64) : State m :=
  if h : n.toNat < 31 then { s with x := Function.update s.x ⟨n.toNat, h⟩ v } else s

/-- Index 31 is `SP`. -/
def setXSp (n : BitVec 5) (v : BitVec 64) : State m :=
  if h : n.toNat < 31 then { s with x := Function.update s.x ⟨n.toNat, h⟩ v }
  else { s with sp := v }

/-! ## ZA -/

/-- What the accumulating instructions and the moves into ZA make of it. -/
def newZa (fp : FpFunctions) (i : Instr) : ZaArray m :=
  match i with
  | .smstart => fun _ => 0
  | .movaV2T esize =>
      mapSlice inp.hv (tileOf esize inp.zad) (s.sliceAt inp esize) (fun i old =>
        if active (s.pReg inp.pg) esize i then lanes esize (s.zReg inp.zn) i else old) s.za
  | .zero => fun row => if inp.imm.getLsbD (row % 8) ∧ (row : ℕ) < 64 then 0 else s.za row
  | .addha esize =>
      mapTile (tileOf esize inp.zada) (fun r c old =>
        if s.both inp esize r c then old + lanes esize (s.zReg inp.zn) c else old) s.za
  | .addva esize =>
      mapTile (tileOf esize inp.zada) (fun r c old =>
        if s.both inp esize r c then old + lanes esize (s.zReg inp.zn) r else old) s.za
  | .integerOuterProduct op esize =>
      mapTile (tileOf esize inp.zada) (fun r c old =>
        let sum := dotProduct (s.zReg inp.zn) (s.zReg inp.zm) (s.pReg inp.pn) (s.pReg inp.pm)
          esize op.op1Unsigned op.op2Unsigned r c
        old + BitVec.ofInt _ (if op.subOp then -sum else sum)) s.za
  | .wideningOuterProduct op =>
      @mapTile m .word (tileOf .word inp.zada) (fun r c old =>
        let neg := if op.subOp then op.negFn fp else id
        if s.both inp .half (2 * r) (2 * c) || s.both inp .half (2 * r + 1) (2 * c + 1) then
          op.dotaddFn fp old
            (wideningOperand (s.zReg inp.zn) (s.pReg inp.pn) .half 0 neg (2 * r))
            (wideningOperand (s.zReg inp.zn) (s.pReg inp.pn) .half 0 neg (2 * r + 1))
            (wideningOperand (s.zReg inp.zm) (s.pReg inp.pm) .half 0 id (2 * c))
            (wideningOperand (s.zReg inp.zm) (s.pReg inp.pm) .half 0 id (2 * c + 1))
        else old) s.za
  | .fmopa esize =>
      mapTile (tileOf esize inp.zada) (fun r c old =>
        if s.both inp esize r c then
          fp.fpmac esize old (lanes esize (s.zReg inp.zn) r) (lanes esize (s.zReg inp.zm) c)
        else old) s.za
  | .fmops esize =>
      mapTile (tileOf esize inp.zada) (fun r c old =>
        if s.both inp esize r c then
          fp.fpmac esize old (fp.fpneg esize (lanes esize (s.zReg inp.zn) r))
            (lanes esize (s.zReg inp.zm) c)
        else old) s.za
  | .ld1 esize =>
      let v := loadVector m s.mem (s.typedBase inp esize) esize m.dramIsLE
      mapSlice inp.hv (tileOf esize inp.zat) (s.sliceAt inp esize) (fun i _ =>
        if active (s.pReg inp.pg) esize i then lanes esize v i else 0) s.za
  | .ldr => Function.update s.za (s.rowAt inp) (loadVector m s.mem (s.rowBase inp) .byte true)
  | _ => s.za

/-! ## Registers -/

def newZ (i : Instr) : Fin 32 → BitVec m.svl :=
  match i with
  | .smstart | .smstop => fun _ => 0
  | .movaT2V esize =>
      let source := slice inp.hv (tileOf esize inp.zan) (s.sliceAt inp esize) s.za
      (s.setZ inp.zd (vectorOf esize fun i =>
        if active (s.pReg inp.pg) esize i then lanes esize source i
        else lanes esize (s.zReg inp.zd) i)).z
  | .revd =>
      (s.setZ inp.zd (vectorOf .quad fun i =>
        if active (s.pReg inp.pg) .quad i then swapHalves (lanes .quad (s.zReg inp.zn) i)
        else lanes .quad (s.zReg inp.zd) i)).z
  | .sclamp esize =>
      (s.setZ inp.zd (vectorOf esize fun i => BitVec.ofInt _
        (min (max (lanes esize (s.zReg inp.zn) i).toInt (lanes esize (s.zReg inp.zd) i).toInt)
          (lanes esize (s.zReg inp.zm) i).toInt))).z
  | .uclamp esize =>
      (s.setZ inp.zd (vectorOf esize fun i => BitVec.ofNat _
        (min (max (lanes esize (s.zReg inp.zn) i).toNat (lanes esize (s.zReg inp.zd) i).toNat)
          (lanes esize (s.zReg inp.zm) i).toNat))).z
  | _ => s.z

def newP (i : Instr) : Fin 16 → BitVec m.svlB :=
  match i with
  | .smstart | .smstop => fun _ => 0
  | .psel esize =>
      let e := s.index esize inp.rv (inp.imm.toNat % (16 / (esize : ElementSize).bytes))
      (s.setP inp.pd (if active (s.pReg inp.pm) esize e then s.pReg inp.pn else 0)).p
  | _ => s.p

end State

/-! ## Steps -/

/-- A typed transfer checks `SP` if it is the base and an element is active;
a row transfer checks its base. -/
def faulting (s : State m) (inp : Inputs m) : Instr → Bool
  | .ld1 esize | .st1 esize =>
      inp.rn = 31 ∧ ¬ 16 ∣ s.sp.toNat ∧ ∃ i < m.dim esize, active (s.pReg inp.pg) esize i
  | .ldr | .str => ¬ 16 ∣ (s.xRegSp inp.rn).toNat
  | _ => false

def enabled (s : State m) (inp : Inputs m) (i : Instr) : Bool :=
  inp.cmd = tempOpcode &&
    match i with
    | .smstart | .smstop | .addspl | .addsvl | .rdsvl => true
    | .psel _ | .revd | .sclamp _ | .uclamp _ => true
    | .zero | .ldr | .str => s.zaOn
    | _ => s.sm && s.zaOn

def newMem (s : State m) (inp : Inputs m) : Instr → BitVec 128 → BitVec 8
  | .st1 esize =>
      storeVector s.mem (s.typedBase inp esize) esize m.dramIsLE (active (s.pReg inp.pg) esize)
        (slice inp.hv (tileOf esize inp.zat) (s.sliceAt inp esize) s.za)
  | .str => storeVector s.mem (s.rowBase inp) .byte true (fun _ => true) (s.za (s.rowAt inp))
  | _ => s.mem

def newX (s : State m) (inp : Inputs m) : Instr → State m
  | .addspl =>
      s.setXSp inp.rd (BitVec.ofInt 64 ((s.xRegSp inp.rn).toNat + inp.imm6.toInt * (m.svl / 64 : ℕ)))
  | .addsvl =>
      s.setXSp inp.rd (BitVec.ofInt 64 ((s.xRegSp inp.rn).toNat + inp.imm6.toInt * (m.svl / 8 : ℕ)))
  | .rdsvl => s.setX inp.rd (BitVec.ofInt 64 (inp.imm6.toInt * (m.svl / 8 : ℕ)))
  | _ => s

def newMode (i : Instr) (old : Bool) : Bool :=
  match i with
  | .smstart => true
  | .smstop => false
  | _ => old

def exec (fp : FpFunctions) (i : Instr) (inp : Inputs m) (s : State m) : State m where
  za := s.newZa inp fp i
  sm := newMode i s.sm
  zaOn := newMode i s.zaOn
  z := s.newZ inp i
  p := s.newP inp i
  x := (newX s inp i).x
  sp := (newX s inp i).sp
  mem := newMem s inp i
  faults := if faulting s inp i then s.faults + 1 else s.faults

def Step (fp : FpFunctions) (s : State m) (l : Label m) (t : State m) : Prop :=
  enabled s l.2 l.1 = true ∧ t = exec fp l.1 l.2 s

abbrev Path (fp : FpFunctions) : State m → List (Label m) → State m → Prop :=
  Runs (Step fp)

end ArmSmeIla.Arch
