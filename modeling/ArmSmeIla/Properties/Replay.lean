import ArmSmeIla.Properties.WriteBack

/-!
# Replaying the captured writes

The captures of the store steps of a path are a log of DRAM: replayed over the
initial contents they give the final ones, whatever ran in between and whatever
the sizes, predicates and byte orders of the stores were.
-/

namespace ArmSmeIla

variable {m : ArmSme} {fp : FpFunctions}

/-- A captured write: its address and its vector, most significant byte first. -/
abbrev CapturedWrite (m : ArmSme) : Type := BitVec 128 × BitVec m.svl

def captureOf (s : State m) : CapturedWrite m := (s.wbBaseAddr, s.wbSvlVector)

/-- Put a captured vector back at its address. -/
def replay (dram : DramMem) (w : CapturedWrite m) : DramMem := fun addr =>
  if InBlock m w.1 addr then getElementInVectorFromMSB w.2 (addr - w.1).toNat 8 m.svl
  else dram addr

/-- What the store steps of a sequence capture, in order. -/
def captures (fp : FpFunctions) : State m → List (Label m) → List (CapturedWrite m)
  | _, [] => []
  | s, l :: ls =>
      let s' := exec fp l.1 l.2 s
      if l.1.writes .dram then captureOf s' :: captures fp s' ls else captures fp s' ls

/-- The last write that covers an address decides. -/
theorem foldl_replay_apply (ws : List (CapturedWrite m)) (dram : DramMem) (addr : BitVec 128) :
    ws.foldl replay dram addr =
      match ws.reverse.find? fun w => InBlock m w.1 addr with
      | some w => getElementInVectorFromMSB w.2 (addr - w.1).toNat 8 m.svl
      | none => dram addr := by
  induction ws using List.reverseRecOn with
  | nil => rfl
  | append_singleton ws w ih =>
      rw [List.foldl_append, List.foldl_cons, List.foldl_nil, List.reverse_append,
        List.reverse_singleton, List.singleton_append, List.find?_cons, replay]
      by_cases h : InBlock m w.1 addr
      · rw [if_pos h, decide_eq_true h]
      · rw [if_neg h, decide_eq_false h, ih]

/-- A store is the replay of what it captures. -/
theorem dram_exec_store {i : Instr} (h : i.writes .dram = true) (inp : Inputs m) (s : State m) :
    (exec fp i inp s).dram = replay s.dram (captureOf (exec fp i inp s)) := by
  obtain ⟨base, vector, esize, convert, hdram, hvector, hbase⟩ := exec_store fp h inp s
  funext addr
  rw [hdram, replay, captureOf, hvector, hbase]
  by_cases hin : InBlock m base addr
  · rw [if_pos hin, ← dramSetVector_captured s base vector esize convert hin]
    congr 1
    rw [blockAddr, BitVec.ofNat_toNat, BitVec.setWidth_eq, BitVec.add_comm, BitVec.sub_add_cancel]
  · rw [if_neg hin]
    exact dramSetVector_outside s base vector esize convert hin

/-- Replaying the captures of a path over its initial DRAM gives its final
DRAM, in which each byte is that of the last capture covering it; and the state
ends with the last capture. -/
theorem path_replay {s t : State m} {ls : List (Label m)} (run : Path fp s ls t) :
    t.dram = (captures fp s ls).foldl replay s.dram ∧
      (∀ addr, t.dram addr =
        match (captures fp s ls).reverse.find? fun w => InBlock m w.1 addr with
        | some w => getElementInVectorFromMSB w.2 (addr - w.1).toNat 8 m.svl
        | none => s.dram addr) ∧
      captureOf t = (captures fp s ls).getLastD (captureOf s) := by
  have hends : t.dram = (captures fp s ls).foldl replay s.dram ∧
      captureOf t = (captures fp s ls).getLastD (captureOf s) := by
    induction run with
    | nil s => exact ⟨rfl, rfl⟩
    | @cons s mid t l ls h _ ih =>
        rcases h with ⟨-, rfl⟩
        rw [captures]
        cases hw : l.1.writes .dram with
        | true =>
            rw [dram_exec_store hw] at ih
            exact ⟨ih.1, ih.2.trans (List.getLastD_cons ..).symm⟩
        | false =>
            obtain ⟨hdram, hvector, hbase⟩ := exec_dram fp l.2 s hw
            have hcapture : captureOf (exec fp l.1 l.2 s) = captureOf s := Prod.ext hbase hvector
            rw [hdram, hcapture] at ih
            exact ih
  refine ⟨hends.1, fun addr => ?_, hends.2⟩
  rw [hends.1]
  exact foldl_replay_apply _ _ addr

/-- A row is saved before `SMSTART` and loaded again after it, then stored at
another base. -/
theorem path_replay_str :
    let s : State smeDramBE :=
      { (default : State smeDramBE) with
        pstateZa := true, za := fun addr => addr.setWidth 8
        gprs := fun i => BitVec.ofNat 64 (256 * i), dram := fun _ => 0xFF }
    let inp : Inputs smeDramBE := { (default : Inputs smeDramBE) with cmd := tempOpcode, imm := 1 }
    let ls : List (Label smeDramBE) :=
      [(.str, inp), (.smstart, inp), (.ldr, inp), (.str, { inp with rn := 1 })]
    let t := execAll default ls s
    t.dram = (captures default s ls).foldl replay s.dram ∧
      (captures default s ls).map (·.1) = [16, 272] ∧ t.dram 19 = 0x1C ∧ t.dram 275 = 0x1C := by
  intro s inp ls t
  have run : Path default s ls t :=
    .cons ⟨rfl, rfl⟩ (.cons ⟨rfl, rfl⟩ (.cons ⟨rfl, rfl⟩ (.cons ⟨rfl, rfl⟩ (.nil _))))
  refine ⟨(path_replay run).1, ?_, ?_, ?_⟩ <;> decide +kernel

end ArmSmeIla
