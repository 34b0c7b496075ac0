import Mathlib.Data.List.Basic
import Mathlib.Tactic.TypeStar

/-!
# First-order terms

Applications of declared functions, over numbered holes. The file knows
nothing of a particular solver: it relates filling the holes of a term to
evaluating it, for any interpretation of the functions.
-/

/-- Quantifier-free terms. -/
inductive Term (δ : Type*) where
  | app (decl : δ) (args : List (Term δ))
  | var (idx : ℕ)

namespace Term

variable {δ : Type*}

/-- Induction over a term and all arguments of its applications. -/
@[elab_as_elim]
theorem induct {P : Term δ → Prop} (app : ∀ d args, (∀ a ∈ args, P a) → P (.app d args))
    (var : ∀ i, P (.var i)) (t : Term δ) : P t := by
  refine @Term.rec δ P (fun args => ∀ a ∈ args, P a) app var ?_ ?_ t
  · intro a ha
    exact absurd ha List.not_mem_nil
  · intro a args ha hargs
    rw [List.forall_mem_cons]
    exact ⟨ha, hargs⟩

mutual

def decEq [DecidableEq δ] : (t u : Term δ) → Decidable (t = u)
  | .app d args, .app e args' =>
      haveI := decEqArgs args args'
      decidable_of_iff (d = e ∧ args = args') (by rw [Term.app.injEq])
  | .var i, .var j => decidable_of_iff (i = j) (by rw [Term.var.injEq])
  | .app _ _, .var _ => .isFalse nofun
  | .var _, .app _ _ => .isFalse nofun

def decEqArgs [DecidableEq δ] : (ts us : List (Term δ)) → Decidable (ts = us)
  | [], [] => .isTrue rfl
  | t :: ts, u :: us =>
      haveI := decEq t u
      haveI := decEqArgs ts us
      decidable_of_iff (t = u ∧ ts = us) (by rw [List.cons.injEq])
  | [], _ :: _ => .isFalse nofun
  | _ :: _, [] => .isFalse nofun

end

instance [DecidableEq δ] : DecidableEq (Term δ) := decEq

/-! ## Evaluation -/

section Eval

variable {α : Type*} (interp : δ → List α → α) (env : ℕ → α)

mutual

/-- The value of a term. -/
def eval : Term δ → α
  | .app d args => interp d (evalArgs args)
  | .var i => env i

def evalArgs : List (Term δ) → List α
  | [] => []
  | a :: args => eval a :: evalArgs args

end

theorem evalArgs_eq_map (args : List (Term δ)) :
    evalArgs interp env args = args.map (eval interp env) := by
  induction args with
  | nil => rfl
  | cons a args ih => rw [evalArgs, ih, List.map_cons]

theorem eval_app (d : δ) (args : List (Term δ)) :
    eval interp env (.app d args) = interp d (args.map (eval interp env)) := by
  rw [eval, evalArgs_eq_map]

theorem eval_var (i : ℕ) : eval interp env (.var i) = env i := by
  rw [eval]

end Eval

/-! ## Filling holes -/

mutual

/-- Replaces hole `i` by entry `i` of the list, if there is one. -/
def instantiate (holes : List (Term δ)) : Term δ → Term δ
  | .app d args => .app d (instantiateArgs holes args)
  | .var i => holes.getD i (.var i)

def instantiateArgs (holes : List (Term δ)) : List (Term δ) → List (Term δ)
  | [] => []
  | a :: args => instantiate holes a :: instantiateArgs holes args

end

theorem instantiateArgs_eq_map (holes args : List (Term δ)) :
    instantiateArgs holes args = args.map (instantiate holes) := by
  induction args with
  | nil => rfl
  | cons a args ih => rw [instantiateArgs, ih, List.map_cons]

theorem instantiate_app (holes : List (Term δ)) (d : δ) (args : List (Term δ)) :
    instantiate holes (.app d args) = .app d (args.map (instantiate holes)) := by
  rw [instantiate, instantiateArgs_eq_map]

theorem instantiate_var (holes : List (Term δ)) (i : ℕ) :
    instantiate holes (.var i) = holes.getD i (.var i) := by
  rw [instantiate]

/-- What stands for hole `i` is an entry of the list, or still a hole. -/
theorem getD_cases {P : Term δ → Prop} {holes : List (Term δ)} (hall : ∀ a ∈ holes, P a)
    (hvar : ∀ i, P (.var i)) (i : ℕ) : P (holes.getD i (.var i)) := by
  rw [List.getD_eq_getElem?_getD]
  cases hget : holes[i]? with
  | none => exact hvar i
  | some a => exact hall a (List.mem_of_getElem? hget)

/-- Filling a hole is evaluating it to the value of what fills it. -/
theorem eval_instantiate {α : Type*} (interp : δ → List α → α) (env : ℕ → α)
    (holes : List (Term δ)) (t : Term δ) :
    eval interp env (instantiate holes t) =
      eval interp (fun i => eval interp env (holes.getD i (.var i))) t := by
  induction t using induct with
  | app d args ih =>
      rw [instantiate_app, eval_app, eval_app, List.map_map]
      exact congrArg (interp d) (List.map_congr_left ih)
  | var i => rw [instantiate_var, eval_var]

/-! ## What occurs in a term -/

mutual

/-- Every application, given by its function and its number of arguments, and
every hole has a property. -/
def Every (onApp : δ → ℕ → Prop) (onVar : ℕ → Prop) : Term δ → Prop
  | .app d args => onApp d args.length ∧ EveryArgs onApp onVar args
  | .var i => onVar i

def EveryArgs (onApp : δ → ℕ → Prop) (onVar : ℕ → Prop) : List (Term δ) → Prop
  | [] => True
  | a :: args => Every onApp onVar a ∧ EveryArgs onApp onVar args

end

section Every

variable {onApp : δ → ℕ → Prop} {onVar : ℕ → Prop}

theorem everyArgs_iff (args : List (Term δ)) :
    EveryArgs onApp onVar args ↔ ∀ a ∈ args, Every onApp onVar a := by
  induction args with
  | nil => simp [EveryArgs]
  | cons a args ih => rw [EveryArgs, ih, List.forall_mem_cons]

theorem every_app (d : δ) (args : List (Term δ)) :
    Every onApp onVar (.app d args) ↔
      onApp d args.length ∧ ∀ a ∈ args, Every onApp onVar a := by
  rw [Every, everyArgs_iff]

theorem every_var (i : ℕ) : Every onApp onVar (.var (δ := δ) i) ↔ onVar i := by
  rw [Every]

theorem Every.mono {onApp' : δ → ℕ → Prop} {onVar' : ℕ → Prop} {t : Term δ}
    (ht : Every onApp onVar t) (happ : ∀ d n, onApp d n → onApp' d n)
    (hvar : ∀ i, onVar i → onVar' i) : Every onApp' onVar' t := by
  induction t using Term.induct with
  | app d args ih =>
      rw [every_app] at ht ⊢
      exact ⟨happ d _ ht.1, fun a ha => ih a ha (ht.2 a ha)⟩
  | var i =>
      rw [every_var] at ht ⊢
      exact hvar i ht

/-- What occurs in a filled term occurs in the term or in what fills a hole. -/
theorem every_instantiate {onVar' : ℕ → Prop} {holes : List (Term δ)} {t : Term δ}
    (ht : Every onApp onVar t)
    (hholes : ∀ i, onVar i → Every onApp onVar' (holes.getD i (.var i))) :
    Every onApp onVar' (instantiate holes t) := by
  induction t using induct with
  | app d args ih =>
      rw [every_app] at ht
      rw [instantiate_app, every_app, List.length_map]
      refine ⟨ht.1, ?_⟩
      rintro _ hb
      rcases List.mem_map.mp hb with ⟨a, ha, rfl⟩
      exact ih a ha (ht.2 a ha)
  | var i =>
      rw [every_var] at ht
      rw [instantiate_var]
      exact hholes i ht

/-- The value depends on the holes that occur only. -/
theorem eval_congr {α : Type*} (interp : δ → List α → α) {env env' : ℕ → α} {t : Term δ}
    (ht : Every onApp onVar t) (henv : ∀ i, onVar i → env i = env' i) :
    eval interp env t = eval interp env' t := by
  induction t using induct with
  | app d args ih =>
      rw [every_app] at ht
      rw [eval_app, eval_app]
      refine congrArg (interp d) (List.map_congr_left ?_)
      intro a ha
      exact ih a ha (ht.2 a ha)
  | var i =>
      rw [every_var] at ht
      rw [eval_var, eval_var, henv i ht]

end Every

end Term
