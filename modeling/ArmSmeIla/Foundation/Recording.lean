import Mathlib.Data.List.Basic

/-!
# Computations that record failures

A test goes on after a failed expectation, which is recorded, and ends at an
exception. What matters of such a computation is whether it was clean: it
returned, with nothing recorded.
-/

universe u

/-- What was recorded, in order, and how the computation ended. -/
structure Recording (ε φ α : Type u) where
  failures : List φ
  outcome : Except ε α

namespace Recording

variable {ε φ α β : Type u}

instance : Monad (Recording ε φ) where
  pure a := ⟨[], .ok a⟩
  bind x f :=
    match x.outcome with
    | .ok a => ⟨x.failures ++ (f a).failures, (f a).outcome⟩
    | .error e => ⟨x.failures, .error e⟩

def record (failure : φ) : Recording ε φ PUnit := ⟨[failure], .ok ⟨⟩⟩

def throw (e : ε) : Recording ε φ α := ⟨[], .error e⟩

def Clean (x : Recording ε φ α) (a : α) : Prop := x.failures = [] ∧ x.outcome = .ok a

@[simp]
theorem clean_pure {a b : α} : (pure a : Recording ε φ α).Clean b ↔ a = b := by
  constructor
  · rintro ⟨-, h⟩
    exact Except.ok.inj h
  · rintro rfl
    exact ⟨rfl, rfl⟩

@[simp]
theorem clean_bind {x : Recording ε φ α} {f : α → Recording ε φ β} {b : β} :
    (x >>= f).Clean b ↔ ∃ a, x.Clean a ∧ (f a).Clean b := by
  obtain ⟨failures, outcome⟩ := x
  cases outcome with
  | ok a =>
      constructor
      · rintro ⟨hfailures, houtcome⟩
        obtain ⟨hx, hf⟩ := List.append_eq_nil_iff.mp hfailures
        exact ⟨a, ⟨hx, rfl⟩, hf, houtcome⟩
      · rintro ⟨a', ⟨hx, ha⟩, hf, houtcome⟩
        obtain rfl := Except.ok.inj ha
        exact ⟨List.append_eq_nil_iff.mpr ⟨hx, hf⟩, houtcome⟩
  | error e =>
      constructor
      · rintro ⟨-, houtcome⟩
        cases houtcome
      · rintro ⟨a, ⟨-, ha⟩, -⟩
        cases ha

@[simp]
theorem not_clean_record {failure : φ} {u : PUnit} :
    ¬ (record failure : Recording ε φ PUnit).Clean u := by
  rintro ⟨h, -⟩
  cases h

@[simp]
theorem not_clean_throw {e : ε} {a : α} : ¬ (throw e : Recording ε φ α).Clean a := by
  rintro ⟨-, h⟩
  cases h

/-- A loop is clean when every round is. -/
@[simp]
theorem clean_forM {γ : Type*} {l : List γ} {f : γ → Recording ε φ PUnit} {u : PUnit} :
    (l.forM f).Clean u ↔ ∀ x ∈ l, (f x).Clean u := by
  induction l with
  | nil => exact ⟨fun _ _ h => absurd h List.not_mem_nil, fun _ => ⟨rfl, rfl⟩⟩
  | cons x l ih =>
      show (f x >>= fun _ => l.forM f).Clean u ↔ _
      rw [clean_bind, List.forall_mem_cons]
      constructor
      · rintro ⟨_, hx, hl⟩
        exact ⟨hx, ih.mp hl⟩
      · rintro ⟨hx, hl⟩
        exact ⟨u, hx, ih.mpr hl⟩

end Recording
