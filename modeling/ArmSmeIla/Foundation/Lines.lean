import ArmSmeIla.Foundation.Loops
import Mathlib.Data.Matrix.Basic
import Mathlib.LinearAlgebra.Matrix.RowCol

/-!
# Lines of a family of square matrices

A line is a row or a column of one matrix of the family; a flag says which.
Reading and replacing a line form a lawful lens, lines of different matrices
do not meet, and two lines of different orientation meet in one entry. The
entries may be of any type.
-/

namespace Lines

variable {τ n α : Type*}

/-- The line `k` of matrix `t`: a column if `vertical`, else a row. -/
def line (vertical : Bool) (F : τ → Matrix n n α) (t : τ) (k : n) : n → α :=
  if vertical then (F t).col k else (F t).row k

theorem line_apply (vertical : Bool) (F : τ → Matrix n n α) (t : τ) (k i : n) :
    line vertical F t k i = if vertical then F t i k else F t k i := by
  cases vertical <;> rfl

/-- The two orientations are transposes of one another. -/
theorem line_transpose (vertical : Bool) (F : τ → Matrix n n α) (t : τ) (k i : n) :
    line vertical F t k i = line (!vertical) F t i k := by
  cases vertical <;> rfl

variable [DecidableEq τ] [DecidableEq n]

/-- Replace the line `k` of matrix `t`. -/
def setLine (vertical : Bool) (F : τ → Matrix n n α) (t : τ) (k : n) (x : n → α) :
    τ → Matrix n n α :=
  Function.update F t (if vertical then (F t).updateCol k x else (F t).updateRow k x)

theorem setLine_apply (vertical : Bool) (F : τ → Matrix n n α) (t : τ) (k : n) (x : n → α)
    (t' : τ) (r c : n) :
    setLine vertical F t k x t' r c =
      if t' = t ∧ (if vertical then c else r) = k then x (if vertical then r else c)
      else F t' r c := by
  by_cases h : t' = t
  · subst h
    cases vertical with
    | false => simp [setLine, Matrix.updateRow_apply]
    | true => simp [setLine, Matrix.updateCol_apply]
  · rw [if_neg (fun hc => h hc.1), setLine, Function.update_of_ne h]

variable (vertical : Bool) (F : τ → Matrix n n α) (t : τ) (k : n) (x y : n → α)

/-! ## Lens laws -/

theorem line_setLine : line vertical (setLine vertical F t k x) t k = x := by
  funext i
  cases vertical <;> simp [line_apply, setLine_apply]

theorem setLine_line : setLine vertical F t k (line vertical F t k) = F := by
  funext t'
  apply Matrix.ext
  intro r c
  rw [setLine_apply]
  by_cases h : t' = t ∧ (if vertical then c else r) = k
  · obtain ⟨rfl, rfl⟩ := h
    rw [if_pos ⟨rfl, rfl⟩]
    cases vertical <;> rfl
  · rw [if_neg h]

theorem setLine_setLine :
    setLine vertical (setLine vertical F t k x) t k y = setLine vertical F t k y := by
  funext t'
  apply Matrix.ext
  intro r c
  simp only [setLine_apply]
  by_cases h : t' = t ∧ (if vertical then c else r) = k
  · rw [if_pos h, if_pos h]
  · rw [if_neg h, if_neg h, if_neg h]

/-! ## Other lines -/

variable {t k}

/-- Lines of other matrices, in either orientation, keep their values. -/
theorem line_setLine_of_ne {t' : τ} (h : t' ≠ t) (vertical' : Bool) (k' : n) :
    line vertical' (setLine vertical F t k x) t' k' = line vertical' F t' k' := by
  simp only [line, setLine, Function.update_of_ne h]

/-- A line of the other orientation changes in the one entry it shares. -/
theorem line_setLine_cross (j : n) :
    line (!vertical) (setLine vertical F t k x) t j =
      Function.update (line (!vertical) F t j) k (x j) := by
  funext i
  cases vertical <;>
    simp only [line_apply, setLine_apply, Function.update_apply, true_and, Bool.not_true,
      Bool.not_false, if_true, Bool.false_eq_true, if_false]

/-! ## All lines -/

/-- A loop that sets line `i` in iteration `i` replaces the whole matrix; `view`
is the family that a state of the loop stands for. -/
theorem foldl_setLine {σ : Type*} {n : ℕ} (view : σ → τ → Matrix (Fin n) (Fin n) α)
    {store : σ → ℕ → σ} (vertical : Bool) {t : τ} (x : ℕ → Fin n → α)
    (hstore : ∀ (i : Fin n) s, view (store s i) = setLine vertical (view s) t i (x i)) (s : σ) :
    view ((List.range n).foldl store s) =
      Function.update (view s) t (Matrix.of fun r c => if vertical then x c r else x r c) := by
  funext t'
  by_cases htt : t' = t
  · subst htt
    rw [Function.update_self]
    apply Matrix.ext
    intro r c
    -- only one iteration sets the line through this entry
    let k : Fin n := if vertical then c else r
    have hentry : (Matrix.of fun r c : Fin n => if vertical then x c r else x r c) r c =
        x k (if vertical then r else c) := by
      cases vertical <;> rfl
    rw [hentry]
    refine Loops.foldl_once (fun s => view s t' r c) (fun _ => x k (if vertical then r else c))
      List.nodup_range (List.mem_range.mpr k.isLt) ?_ ?_ s
    · intro s
      rw [hstore, setLine_apply, if_pos ⟨rfl, rfl⟩]
    · intro j hj hne s
      rw [hstore ⟨j, List.mem_range.mp hj⟩, setLine_apply, if_neg]
      rintro ⟨_, hk⟩
      exact hne (congrArg Fin.val hk).symm
  · rw [Function.update_of_ne htt]
    refine Loops.foldl_frame (fun s => view s t') ?_ s
    intro j hj s
    rw [hstore ⟨j, List.mem_range.mp hj⟩, setLine, Function.update_of_ne htt]

end Lines
