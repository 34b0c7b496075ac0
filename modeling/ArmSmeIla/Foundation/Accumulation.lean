import Mathlib.Algebra.BigOperators.Group.List.Basic
import Mathlib.Tactic.Abel

/-!
# Machines that accumulate

A machine whose steps each add to an observed value an amount that depends on
the label alone: the value after a sequence is the initial one plus the sum of
the amounts. The order of the labels is then immaterial, and two labels with
opposite amounts cancel wherever they stand.
-/

variable {σ ι G : Type*} [AddCommMonoid G]

/-- On states satisfying `I`, labels in `P` keep `I` and add `amount` to `view`. -/
structure Accumulates (step : σ → ι → σ) (I : σ → Prop) (P : ι → Prop) (view : σ → G)
    (amount : ι → G) : Prop where
  keeps : ∀ {s x}, P x → I s → I (step s x)
  adds : ∀ {s x}, P x → I s → view (step s x) = view s + amount x

namespace Accumulates

variable {step : σ → ι → σ} {I : σ → Prop} {P : ι → Prop} {view : σ → G} {amount : ι → G}
  (acc : Accumulates step I P view amount)

include acc

theorem view_foldl {xs : List ι} (hxs : ∀ x ∈ xs, P x) {s : σ} (hs : I s) :
    view (xs.foldl step s) = view s + (xs.map amount).sum := by
  induction xs generalizing s with
  | nil => simp
  | cons x xs ih =>
      have hx := hxs x List.mem_cons_self
      rw [List.foldl_cons, ih (fun y hy => hxs y (List.mem_cons_of_mem x hy)) (acc.keeps hx hs),
        acc.adds hx hs, List.map_cons, List.sum_cons, add_assoc]

theorem view_foldl_perm {xs ys : List ι} (perm : ys.Perm xs) (hxs : ∀ x ∈ xs, P x) {s : σ}
    (hs : I s) : view (ys.foldl step s) = view (xs.foldl step s) := by
  have hys : ∀ y ∈ ys, P y := fun y hy => hxs y (perm.subset hy)
  rw [acc.view_foldl hys hs, acc.view_foldl hxs hs, (perm.map amount).sum_eq]

/-- A pair of opposite labels can be inserted anywhere. -/
theorem view_foldl_cancel {pre mid post : List ι} {x y : ι} (hcancel : amount x + amount y = 0)
    (hx : P x) (hy : P y) (hrest : ∀ z ∈ pre ++ mid ++ post, P z) {s : σ} (hs : I s) :
    view ((pre ++ x :: mid ++ y :: post).foldl step s) =
      view ((pre ++ mid ++ post).foldl step s) := by
  have hall : ∀ z ∈ pre ++ x :: mid ++ y :: post, P z := by
    intro z hz
    simp only [List.mem_append, List.mem_cons] at hz
    rcases hz with (hz | rfl | hz) | rfl | hz
    · exact hrest z (by simp [hz])
    · exact hx
    · exact hrest z (by simp [hz])
    · exact hy
    · exact hrest z (by simp [hz])
  have hsum : ((pre ++ x :: mid ++ y :: post).map amount).sum =
      ((pre ++ mid ++ post).map amount).sum + (amount x + amount y) := by
    simp only [List.map_append, List.map_cons, List.sum_append, List.sum_cons]
    abel
  rw [acc.view_foldl hall hs, acc.view_foldl hrest hs, hsum, hcancel, add_zero]

end Accumulates
