import Mathlib.Tactic.TypeStar

/-!
# Runs of a labelled transition relation

Nothing here is specific to a machine: a run is a finite sequence of labelled
steps, and the rules turn a fact about one step into a fact about every run.
-/

variable {σ ι : Type*}

/-- Finite runs, with the list of labels taken. -/
inductive Runs (step : σ → ι → σ → Prop) : σ → List ι → σ → Prop
  | nil (s : σ) : Runs step s [] s
  | cons {s mid t : σ} {x : ι} {xs : List ι} :
      step s x mid → Runs step mid xs t → Runs step s (x :: xs) t

namespace Runs

variable {step : σ → ι → σ → Prop}

/-- What every step with a label in `Q` preserves, every run over such labels
preserves. -/
theorem invariant {I : σ → Prop} {Q : ι → Prop}
    (preserved : ∀ {s x t}, step s x t → Q x → I s → I t)
    {s t : σ} {xs : List ι} (run : Runs step s xs t) (all : ∀ x ∈ xs, Q x) (start : I s) :
    I t := by
  induction run with
  | nil => exact start
  | cons h _ ih =>
      exact ih (fun y hy => all y (List.mem_cons_of_mem _ hy))
        (preserved h (all _ List.mem_cons_self) start)

/-- A property established by the labels in `P` and preserved by all others
holds in every state after the first label in `P`. The steps taken may be
restricted to labels in `Q`. -/
theorem established {I : σ → Prop} {P Q : ι → Prop}
    (establish : ∀ {s x t}, step s x t → Q x → P x → I t)
    (preserved : ∀ {s x t}, step s x t → Q x → ¬ P x → I s → I t)
    {s t : σ} {xs : List ι} (run : Runs step s xs t) (all : ∀ x ∈ xs, Q x)
    (seen : (∃ x ∈ xs, P x) ∨ I s) : I t := by
  classical
  induction run with
  | nil => simpa using seen
  | @cons s mid t x xs h rest ih =>
      have hQ := all x List.mem_cons_self
      apply ih fun y hy => all y (List.mem_cons_of_mem x hy)
      by_cases hx : P x
      · exact Or.inr (establish h hQ hx)
      · rcases seen with ⟨y, hy, hPy⟩ | hs
        · rcases List.mem_cons.mp hy with rfl | hy
          · exact absurd hPy hx
          · exact Or.inl ⟨y, hy, hPy⟩
        · exact Or.inr (preserved h hQ hx hs)

/-- An observation that no step of the run changes is the same at both ends. -/
theorem unchanged {β : Type*} (obs : σ → β) {P : ι → Prop}
    (frame : ∀ {s x t}, step s x t → P x → obs t = obs s)
    {s t : σ} {xs : List ι} (run : Runs step s xs t) (all : ∀ x ∈ xs, P x) : obs t = obs s := by
  induction run with
  | nil => rfl
  | cons h _ ih =>
      rw [ih fun y hy => all y (List.mem_cons_of_mem _ hy)]
      exact frame h (all _ List.mem_cons_self)

/-- `StepOf step s xs t a x b`: the run from `s` to `t` over `xs` takes the
step from `a` to `b` labelled `x`. -/
def StepOf (step : σ → ι → σ → Prop) (s : σ) (xs : List ι) (t a : σ) (x : ι) (b : σ) : Prop :=
  ∃ pre post, xs = pre ++ x :: post ∧
    Runs step s pre a ∧ step a x b ∧ Runs step b post t

theorem StepOf.is_step {s t a b : σ} {x : ι} {xs : List ι}
    (h : StepOf step s xs t a x b) : step a x b := by
  obtain ⟨_, _, _, _, hstep, _⟩ := h
  exact hstep

theorem StepOf.mem {s t a b : σ} {x : ι} {xs : List ι}
    (h : StepOf step s xs t a x b) : x ∈ xs := by
  obtain ⟨pre, post, rfl, _⟩ := h
  simp

/-- The first step of a run, and a step of the rest, are steps of the run. -/
theorem StepOf.head {s mid t : σ} {x : ι} {xs : List ι} (h : step s x mid)
    (rest : Runs step mid xs t) : StepOf step s (x :: xs) t s x mid :=
  ⟨[], xs, rfl, .nil s, h, rest⟩

theorem StepOf.tail {s mid t a b : σ} {x y : ι} {xs : List ι} (h : step s x mid)
    (later : StepOf step mid xs t a y b) : StepOf step s (x :: xs) t a y b := by
  obtain ⟨pre, post, rfl, hpre, hstep, hpost⟩ := later
  exact ⟨x :: pre, post, rfl, .cons h hpre, hstep, hpost⟩

/-- A step of a run is its first step or a step of the rest. -/
theorem StepOf.cases {s t a b : σ} {x y : ι} {xs : List ι}
    (h : StepOf step s (x :: xs) t a y b) :
    (a = s ∧ y = x ∧ Runs step b xs t) ∨ ∃ mid, step s x mid ∧ StepOf step mid xs t a y b := by
  obtain ⟨pre, post, heq, hpre, hstep, hpost⟩ := h
  cases hpre with
  | nil =>
      obtain ⟨rfl, rfl⟩ := List.cons.inj heq
      exact Or.inl ⟨rfl, rfl, hpost⟩
  | @cons _ mid _ x' pre' hfirst hrest =>
      obtain ⟨rfl, rfl⟩ := List.cons.inj heq
      exact Or.inr ⟨mid, hfirst, pre', post, rfl, hrest, hstep, hpost⟩

/-- A preorder that relates the ends of every step of the run relates the ends
of the run. -/
theorem related {R : σ → σ → Prop} (refl : ∀ s, R s s)
    (trans : ∀ {a b c}, R a b → R b c → R a c) {s t : σ} {xs : List ι}
    (run : Runs step s xs t) (steps : ∀ {a x b}, StepOf step s xs t a x b → R a b) : R s t := by
  induction run with
  | nil s => exact refl s
  | cons h rest ih => exact trans (steps (.head h rest)) (ih fun later => steps (later.tail h))

end Runs
