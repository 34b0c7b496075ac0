import Mathlib.Algebra.Group.Nat.Defs
import Mathlib.Data.List.FinRange
import Mathlib.Data.List.Range
import Mathlib.Logic.Function.Basic

/-!
# Counted loops seen through one observation

The programs verified here are `for` loops that overwrite a memory, a vector
or a register file a piece at a time. Proofs about them look at one observed
piece: most iterations miss it, one hits it. The rules below are stated for
an arbitrary state and an arbitrary observation.
-/

namespace Loops

variable {σ ι β : Type*}

/-- The `for` rule: an indexed invariant established at 0 and preserved by
iteration `i < n` holds at `n`. -/
theorem foldl_range_induction (P : ℕ → σ → Prop) {f : σ → ℕ → σ} {n : ℕ} {s : σ}
    (start : P 0 s) (next : ∀ i < n, ∀ s, P i s → P (i + 1) (f s i)) :
    P n ((List.range n).foldl f s) := by
  induction n with
  | zero => exact start
  | succ n ih =>
      rw [List.range_succ, List.foldl_append]
      exact next n (Nat.lt_succ_self n) _ (ih fun i hi => next i (Nat.lt_succ_of_lt hi))

/-- An observation that no iteration touches survives the loop. -/
theorem foldl_frame (obs : σ → β) {f : σ → ι → σ} {l : List ι}
    (miss : ∀ j ∈ l, ∀ s, obs (f s j) = obs s) (s : σ) :
    obs (l.foldl f s) = obs s := by
  induction l generalizing s with
  | nil => rfl
  | cons x xs ih =>
      rw [List.foldl_cons, ih fun j hj => miss j (List.mem_cons_of_mem x hj)]
      exact miss x List.mem_cons_self s

/-- An observation that exactly one iteration transforms is transformed once. -/
theorem foldl_once (obs : σ → β) (g : β → β) {f : σ → ι → σ} {l : List ι}
    (nodup : l.Nodup) {i : ι} (mem : i ∈ l)
    (hit : ∀ s, obs (f s i) = g (obs s))
    (miss : ∀ j ∈ l, j ≠ i → ∀ s, obs (f s j) = obs s) (s : σ) :
    obs (l.foldl f s) = g (obs s) := by
  obtain ⟨pre, post, rfl⟩ := List.append_of_mem mem
  have fresh : i ∉ pre ∧ i ∉ post := by
    rw [List.nodup_middle, List.nodup_cons, List.mem_append, not_or] at nodup
    exact nodup.1
  have before : obs (pre.foldl f s) = obs s :=
    foldl_frame obs (fun j hj => miss j (by simp [hj]) fun h => fresh.1 (h ▸ hj)) s
  have after : ∀ s, obs (post.foldl f s) = obs s :=
    foldl_frame obs fun j hj => miss j (by simp [hj]) fun h => fresh.2 (h ▸ hj)
  rw [List.foldl_append, List.foldl_cons, after, hit, before]

/-- An observation that every iteration either overwrites with `v` or leaves
alone is `v` after the loop when one iteration overwrites it. -/
theorem foldl_overwrite (obs : σ → β) (v : β) (hits : ι → Prop) [DecidablePred hits]
    {f : σ → ι → σ} {l : List ι}
    (iter : ∀ j ∈ l, ∀ s, obs (f s j) = if hits j then v else obs s) (s : σ) :
    obs (l.foldl f s) = if ∃ j ∈ l, hits j then v else obs s := by
  induction l generalizing s with
  | nil => simp
  | cons x xs ih =>
      rw [List.foldl_cons, ih fun j hj => iter j (List.mem_cons_of_mem x hj),
        iter x List.mem_cons_self]
      by_cases hx : hits x
      · simp [hx]
      · simp [hx]

/-- A loop whose first iteration is unrolled: `f 0; for i = 1 … n - 1`. -/
theorem foldl_first_unrolled {n : ℕ} (hn : 0 < n) (f : σ → ℕ → σ) (s : σ) :
    (List.range' 1 (n - 1)).foldl f (f s 0) = (List.range n).foldl f s := by
  obtain ⟨k, rfl⟩ := Nat.exists_eq_succ_of_ne_zero hn.ne'
  rw [List.range_eq_range', Nat.succ_eq_add_one, List.range'_succ, List.foldl_cons]
  rfl

/-- A loop that may fail, all of whose iterations succeed, is a loop; `embed`
says which states it runs through. -/
theorem foldlM_ok {ε τ : Type*} (embed : σ → τ) {f : τ → ι → Except ε τ} {g : σ → ι → σ}
    {l : List ι} (succeeds : ∀ j ∈ l, ∀ s, f (embed s) j = .ok (embed (g s j))) (s : σ) :
    l.foldlM f (embed s) = .ok (embed (l.foldl g s)) := by
  induction l generalizing s with
  | nil => rfl
  | cons x xs ih =>
      rw [List.foldlM_cons, succeeds x List.mem_cons_self]
      exact ih (fun j hj => succeeds j (List.mem_cons_of_mem x hj)) (g s x)

/-! Tables indexed by a counter, as the lists that the loops fill. -/

theorem exists_map_range [Inhabited β] (l : List β) :
    ∃ (f : ℕ → β) (n : ℕ), l = (List.range n).map f := by
  refine ⟨fun i => l.getD i default, l.length, ?_⟩
  apply List.ext_getElem
  · simp
  · intro i hi _
    simp [List.getElem?_eq_getElem hi]

theorem zipIdx_map_range (g : ℕ → β) (n : ℕ) :
    ((List.range n).map g).zipIdx = (List.range n).map fun i => (g i, i) := by
  apply List.ext_getElem <;> simp

theorem mapIdx_map_range {γ : Type*} (f : ℕ → β → γ) (g : ℕ → β) (n : ℕ) :
    ((List.range n).map g).mapIdx f = (List.range n).map fun i => f i (g i) := by
  apply List.ext_getElem <;> simp

/-! ## Loops of stores -/

section Stores

variable {α : Type*} [DecidableEq α] (addr : ℕ → α) (val : ℕ → β)

/-- A loop storing `val i` at `addr i` for `i < n`. -/
def storeAll (n : ℕ) (mem : α → β) : α → β :=
  (List.range n).foldl (fun mem i => Function.update mem (addr i) (val i)) mem

variable {addr} {n : ℕ}

theorem storeAll_hit (inj : ∀ i < n, ∀ j < n, addr i = addr j → i = j) {i : ℕ} (hi : i < n)
    (mem : α → β) : storeAll addr val n mem (addr i) = val i := by
  refine foldl_once (fun mem : α → β => mem (addr i)) (fun _ => val i) List.nodup_range
    (List.mem_range.mpr hi) ?_ ?_ mem
  · intro mem
    exact Function.update_self ..
  · intro j hj hne mem
    apply Function.update_of_ne
    exact fun h => hne (inj j (List.mem_range.mp hj) i hi h.symm)

theorem storeAll_miss {a : α} (h : ∀ i < n, a ≠ addr i) (mem : α → β) :
    storeAll addr val n mem a = mem a := by
  refine foldl_frame (fun mem : α → β => mem a) ?_ mem
  intro j hj mem
  exact Function.update_of_ne (h j (List.mem_range.mp hj)) ..

end Stores

/-! ## Selection chains -/

/-- `expr = regs 0; for i = 1 … n: expr = (idx == i) ? regs i : expr`. -/
def selectChain {n : ℕ} {α : Type*} [DecidableEq α] (name : ℕ → α) (regs : Fin (n + 1) → β)
    (idx : α) : β :=
  (List.finRange n).foldl
    (fun expr (i : Fin n) => if idx = name (i + 1) then regs i.succ else expr) (regs 0)

theorem selectChain_succ {n : ℕ} {α : Type*} [DecidableEq α] {name : ℕ → α}
    {regs : Fin (n + 1) → β} (i : Fin n)
    (inj : ∀ j : Fin n, name (i + 1) = name (j + 1) → j = i) :
    selectChain name regs (name (i + 1)) = regs i.succ := by
  refine foldl_once (fun expr : β => expr) (fun _ => regs i.succ) (List.nodup_finRange n)
    (List.mem_finRange i) ?_ ?_ _
  · intro s
    exact if_pos rfl
  · intro j _ hne s
    exact if_neg fun h => hne (inj j h)

theorem selectChain_zero {n : ℕ} {α : Type*} [DecidableEq α] {name : ℕ → α}
    {regs : Fin (n + 1) → β} {idx : α} (h : ∀ j : Fin n, idx ≠ name (j + 1)) :
    selectChain name regs idx = regs 0 := by
  refine foldl_frame (fun expr : β => expr) ?_ _
  intro j _ s
  exact if_neg (h j)

/-- Over bit-vector names wide enough for the file, the chain is a lookup. -/
theorem selectChain_ofNat {k n : ℕ} (hn : n < 2 ^ k) (regs : Fin (n + 1) → β) (idx : BitVec k)
    (h : idx.toNat < n + 1) :
    selectChain (BitVec.ofNat k) regs idx = regs ⟨idx.toNat, h⟩ := by
  have name_toNat : ∀ j : Fin n, (BitVec.ofNat k (j + 1)).toNat = j + 1 := fun j =>
    Nat.mod_eq_of_lt (by have := j.isLt; omega)
  rcases Nat.eq_zero_or_pos idx.toNat with hz | hpos
  · rw [selectChain_zero]
    · exact congrArg regs (Fin.ext hz.symm)
    · intro j hj
      have hn := congrArg BitVec.toNat hj
      rw [name_toNat] at hn
      omega
  · have hidx : idx = BitVec.ofNat k ((⟨idx.toNat - 1, by omega⟩ : Fin n) + 1) := by
      apply BitVec.eq_of_toNat_eq
      rw [name_toNat]
      simp only
      omega
    have hsucc : (⟨idx.toNat, h⟩ : Fin (n + 1)) = (⟨idx.toNat - 1, by omega⟩ : Fin n).succ :=
      Fin.ext (by simp only [Fin.succ_mk]; omega)
    rw [hsucc]
    conv_lhs => rw [hidx]
    apply selectChain_succ
    intro j hj
    have heq := congrArg BitVec.toNat hj
    rw [name_toNat, name_toNat] at heq
    exact Fin.ext (Nat.succ.inj heq).symm

end Loops
