import ArmSmeIla.Foundation.Runs
import Mathlib.Data.Nat.Notation

/-!
# Simulation of runs

A relation between the states of two transition relations over the same labels,
kept by every step, is kept by every run.
-/

namespace Runs

variable {σ τ ι : Type*} {step : σ → ι → σ → Prop} {step' : τ → ι → τ → Prop} {R : σ → τ → Prop}

/-- If each step is matched by a step with the same label, each run is matched
by a run with the same labels. The labels taken may be restricted to those in
`Q`. -/
theorem simulated {Q : ι → Prop}
    (matched : ∀ {s a x t}, R s a → Q x → step s x t → ∃ b, step' a x b ∧ R t b)
    {s t : σ} {a : τ} {xs : List ι} (run : Runs step s xs t) (all : ∀ x ∈ xs, Q x)
    (start : R s a) : ∃ b, Runs step' a xs b ∧ R t b := by
  induction run generalizing a with
  | nil => exact ⟨a, .nil a, start⟩
  | cons h _ ih =>
      rcases matched start (all _ List.mem_cons_self) h with ⟨mid, hstep, hmid⟩
      rcases ih (fun y hy => all y (List.mem_cons_of_mem _ hy)) hmid with ⟨b, hrun, hb⟩
      exact ⟨b, .cons hstep hrun, hb⟩

/-- A run of two sequences passes through a state between them. -/
theorem append_iff {s t : σ} {xs ys : List ι} :
    Runs step s (xs ++ ys) t ↔ ∃ mid, Runs step s xs mid ∧ Runs step mid ys t := by
  induction xs generalizing s with
  | nil =>
      constructor
      · intro run
        exact ⟨s, .nil s, run⟩
      · rintro ⟨mid, ⟨⟩, run⟩
        exact run
  | cons x xs ih =>
      constructor
      · rintro ⟨⟩
        case cons next h rest =>
          rcases ih.mp rest with ⟨mid, hpre, hpost⟩
          exact ⟨mid, .cons h hpre, hpost⟩
      · rintro ⟨mid, ⟨⟩, hpost⟩
        case cons next h rest => exact .cons h (ih.mpr ⟨mid, rest, hpost⟩)

/-- A sequence of states with a step from each to the next runs through them. -/
theorem of_sequence {states : ℕ → σ} {xs : List ι}
    (h : ∀ (k : ℕ) (hk : k < xs.length), step (states k) xs[k] (states (k + 1))) {k : ℕ}
    (hk : k ≤ xs.length) : Runs step (states 0) (xs.take k) (states k) := by
  induction k with
  | zero =>
      rw [List.take_zero]
      exact .nil _
  | succ k ih =>
      rw [List.take_succ_eq_append_getElem hk, append_iff]
      exact ⟨states k, ih (Nat.le_of_succ_le hk), .cons (h k hk) (.nil _)⟩

/-- If the steps from the image of a state are the images of its steps, the runs
from the image are the images of its runs. -/
theorem map_iff {κ : Type*} {step' : τ → κ → τ → Prop} (f : σ → τ) (g : ι → κ)
    (h : ∀ {s x b}, step' (f s) (g x) b ↔ ∃ t, step s x t ∧ b = f t) {s : σ} {xs : List ι} {b : τ} :
    Runs step' (f s) (xs.map g) b ↔ ∃ t, Runs step s xs t ∧ b = f t := by
  induction xs generalizing s with
  | nil =>
      constructor
      · rintro ⟨⟩
        exact ⟨s, .nil s, rfl⟩
      · rintro ⟨t, ⟨⟩, rfl⟩
        exact .nil _
  | cons x xs ih =>
      constructor
      · rintro ⟨⟩
        case cons mid hstep rest =>
          obtain ⟨next, hnext, rfl⟩ := h.mp hstep
          obtain ⟨t, run, rfl⟩ := ih.mp rest
          exact ⟨t, .cons hnext run, rfl⟩
      · rintro ⟨t, ⟨⟩, rfl⟩
        case cons next hnext rest =>
          exact .cons (h.mpr ⟨next, hnext, rfl⟩) (ih.mpr ⟨t, rest, rfl⟩)

end Runs
