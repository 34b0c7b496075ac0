import ArmSmeIla.Model.Substitute

/-!
# Substitution preserves meaning

The cached traversal is the plain one, the plain one replaces bottom-up, and a
filled template means what the template means at the values of the arguments.
-/

namespace ArmSmeIla

variable {δ : Type*} [DecidableEq δ] {name : δ → String} {subList : SubstituteList δ}

/-! ## Specification -/

/-- No application of a listed name. -/
def TargetFree (name : δ → String) (subList : SubstituteList δ) (t : Term δ) : Prop :=
  t.Every (fun decl _ => ∀ entry ∈ subList, entry.1 ≠ name decl) fun _ => True

/-- Every function is applied to as many arguments as it takes, as in any Z3
application. -/
def WellFormed (arity : δ → ℕ) (t : Term δ) : Prop :=
  t.Every (fun decl n => n = arity decl) fun _ => True

/-- The templates contain no listed name and, of holes, only those below the
arity of the function they stand for. -/
structure Templates (name : δ → String) (arity : δ → ℕ) (subList : SubstituteList δ) : Prop where
  targetFree : ∀ entry ∈ subList, TargetFree name subList entry.2
  holes : ∀ entry ∈ subList, ∀ decl, entry.1 = name decl →
    entry.2.Every (fun _ _ => True) (· < arity decl)

/-- The listed functions mean their templates, by the first entry that matches. -/
def templateInterp {α : Type*} [Inhabited α] (name : δ → String) (subList : SubstituteList δ)
    (interp : δ → List α → α) (decl : δ) (vals : List α) : α :=
  match subList.find? fun entry => entry.1 == name decl with
  | some (_, templateBody) => templateBody.eval interp fun i => vals.getD i default
  | none => interp decl vals

/-! ## The plain recursion -/

theorem plainSubstituteArgs_eq (args : List (Term δ)) :
    plainSubstituteArgs name subList args =
      (args.map (plainSubstitute name subList),
        args.map (plainSubstitute name subList) != args) := by
  induction args with
  | nil => rfl
  | cons arg args ih =>
      rw [plainSubstituteArgs, ih, List.map_cons]
      refine Prod.ext rfl ?_
      show (_ || _) = _
      rw [Bool.eq_iff_iff]
      simp only [Bool.or_eq_true, bne_iff_ne, ne_eq, List.cons.injEq]
      tauto

/-- Rebuilding only what has changed is rebuilding. -/
theorem plainSubstitute_app (decl : δ) (args : List (Term δ)) :
    plainSubstitute name subList (.app decl args) =
      match subList.find? fun entry => entry.1 == name decl with
      | some (_, templateBody) =>
          templateBody.instantiate (args.map (plainSubstitute name subList))
      | none => .app decl (args.map (plainSubstitute name subList)) := by
  rw [plainSubstitute, plainSubstituteArgs_eq]
  unfold replaceNode
  cases subList.find? fun entry => entry.1 == name decl with
  | some entry => rfl
  | none =>
      by_cases h : args.map (plainSubstitute name subList) = args
      · simp [h]
      · simp [h]

theorem plainSubstitute_var (idx : ℕ) : plainSubstitute name subList (.var idx) = .var idx := by
  rw [plainSubstitute]

/-! ## The cache -/

/-- Every entry is the result of the plain recursion. -/
def Cache.Sound (name : δ → String) (subList : SubstituteList δ) (cache : Cache δ) : Prop :=
  ∀ key result, cache key = some result → result = plainSubstitute name subList key

theorem Cache.Sound.emplace {cache : Cache δ} (h : cache.Sound name subList) {key result : Term δ}
    (hresult : result = plainSubstitute name subList key) :
    (cache.emplace key result).Sound name subList := by
  intro key' result' hfind
  unfold Cache.emplace at hfind
  split at hfind
  · exact h key' result' hfind
  · by_cases hkey : key' = key
    · rw [hkey, Function.update_self, Option.some.injEq] at hfind
      rw [hkey, ← hfind, hresult]
    · rw [Function.update_of_ne hkey] at hfind
      exact h key' result' hfind

/-- The result of the plain recursion, and a cache that is still sound. -/
def Memoized (name : δ → String) (subList : SubstituteList δ) (t : Term δ) : Prop :=
  ∀ cache : Cache δ, cache.Sound name subList →
    (recursiveSubstitute name subList t cache).1 = plainSubstitute name subList t ∧
      (recursiveSubstitute name subList t cache).2.Sound name subList

/-- The cache is handed from one argument to the next. -/
theorem substituteArgs_spec {args : List (Term δ)} (hargs : ∀ a ∈ args, Memoized name subList a)
    {cache : Cache δ} (h : cache.Sound name subList) :
    (substituteArgs name subList args cache).1 = (plainSubstituteArgs name subList args).1 ∧
      (substituteArgs name subList args cache).2.1 = (plainSubstituteArgs name subList args).2 ∧
      (substituteArgs name subList args cache).2.2.Sound name subList := by
  induction args generalizing cache with
  | nil => exact ⟨rfl, rfl, h⟩
  | cons arg args ih =>
      rcases hargs arg List.mem_cons_self cache h with ⟨harg, hcache⟩
      rcases ih (fun a ha => hargs a (List.mem_cons_of_mem arg ha)) hcache with ⟨h1, h2, h3⟩
      simp only [substituteArgs, plainSubstituteArgs, harg, h1, h2]
      exact ⟨trivial, trivial, h3⟩

theorem recursiveSubstitute_spec (t : Term δ) : Memoized name subList t := by
  induction t using Term.induct with
  | app decl args ih =>
      intro cache h
      rw [recursiveSubstitute]
      split
      · next result hfind => exact ⟨h _ result hfind, h⟩
      · rcases substituteArgs_spec ih h with ⟨h1, h2, h3⟩
        have hresult : replaceNode name subList (.app decl args) decl
            (substituteArgs name subList args cache).1
            (substituteArgs name subList args cache).2.1 =
              plainSubstitute name subList (.app decl args) := by
          rw [h1, h2, plainSubstitute]
        exact ⟨hresult, h3.emplace hresult⟩
  | var idx =>
      intro cache h
      rw [recursiveSubstitute]
      split
      · next result hfind => exact ⟨h _ result hfind, h⟩
      · exact ⟨(plainSubstitute_var idx).symm, h.emplace (plainSubstitute_var idx).symm⟩

theorem substituteFuns_eq_plain (t : Term δ) :
    substituteFuns name subList t = plainSubstitute name subList t :=
  (recursiveSubstitute_spec t (fun _ => none) nofun).1

/-! ## Completeness and meaning -/

/-- Nothing is left to replace. -/
theorem targetFree_plainSubstitute {arity : δ → ℕ} (htemplates : Templates name arity subList)
    (t : Term δ) : TargetFree name subList (plainSubstitute name subList t) := by
  have hvar : ∀ i, TargetFree name subList (.var (δ := δ) i) := fun i =>
    (Term.every_var i).mpr trivial
  induction t using Term.induct with
  | app decl args ih =>
      have hnew : ∀ b ∈ args.map (plainSubstitute name subList), TargetFree name subList b := by
        intro b hb
        rcases List.mem_map.mp hb with ⟨a, ha, rfl⟩
        exact ih a ha
      rw [plainSubstitute_app]
      cases hfind : subList.find? fun entry => entry.1 == name decl with
      | some entry =>
          have hentry := htemplates.targetFree entry (List.mem_of_find?_eq_some hfind)
          exact Term.every_instantiate hentry fun i _ => Term.getD_cases hnew hvar i
      | none =>
          rw [List.find?_eq_none] at hfind
          refine (Term.every_app decl _).mpr ⟨?_, hnew⟩
          intro entry hentry heq
          exact hfind entry hentry (beq_iff_eq.mpr heq)
  | var idx =>
      rw [plainSubstitute_var]
      exact hvar idx

/-- The new term means what the old one does when the listed functions mean
their templates. -/
theorem eval_plainSubstitute {arity : δ → ℕ} (htemplates : Templates name arity subList)
    {α : Type*} [Inhabited α] (interp : δ → List α → α) (env : ℕ → α) {t : Term δ}
    (ht : WellFormed arity t) :
    (plainSubstitute name subList t).eval interp env =
      t.eval (templateInterp name subList interp) env := by
  induction t using Term.induct with
  | app decl args ih =>
      rcases (Term.every_app decl args).mp ht with ⟨hlen, hargs⟩
      have hvals : (args.map (plainSubstitute name subList)).map (Term.eval interp env) =
          args.map (Term.eval (templateInterp name subList interp) env) := by
        rw [List.map_map]
        exact List.map_congr_left fun a ha => ih a ha (hargs a ha)
      rw [plainSubstitute_app, Term.eval_app, ← hvals]
      unfold templateInterp
      cases hfind : subList.find? fun entry => entry.1 == name decl with
      | some entry =>
          have hentry := List.mem_of_find?_eq_some hfind
          have hname : entry.1 = name decl := by simpa using List.find?_some hfind
          show Term.eval interp env (entry.2.instantiate _) = Term.eval interp _ entry.2
          rw [Term.eval_instantiate]
          refine Term.eval_congr interp (htemplates.holes entry hentry decl hname) ?_
          -- hole `i` exists, so both sides are the value of argument `i`
          intro i hi
          have hlt : i < args.length := hlen ▸ hi
          simp [List.getD_eq_getElem?_getD, hlt]
      | none => rw [Term.eval_app]
  | var idx => rw [plainSubstitute_var, Term.eval_var, Term.eval_var]

/-- A term without targets is returned as it is. -/
theorem plainSubstitute_of_targetFree {t : Term δ} (ht : TargetFree name subList t) :
    plainSubstitute name subList t = t := by
  induction t using Term.induct with
  | app decl args ih =>
      rcases (Term.every_app decl args).mp ht with ⟨hdecl, hargs⟩
      have hsame : args.map (plainSubstitute name subList) = args := by
        conv_rhs => rw [← List.map_id args]
        exact List.map_congr_left fun a ha => ih a ha (hargs a ha)
      have hfind : (subList.find? fun entry => entry.1 == name decl) = none := by
        rw [List.find?_eq_none]
        intro entry hentry heq
        exact hdecl entry hentry (beq_iff_eq.mp heq)
      rw [plainSubstitute_app, hfind, hsame]
  | var idx => exact plainSubstitute_var idx

/-- `substitute_funs` removes every target, preserves meaning under every
interpretation, does what the recursion without the cache does, and leaves
alone what has no target. -/
theorem substituteFuns_correct (name : δ → String) (arity : δ → ℕ) (subList : SubstituteList δ)
    (htemplates : Templates name arity subList) (astNode : Term δ)
    (hnode : WellFormed arity astNode) :
    TargetFree name subList (substituteFuns name subList astNode) ∧
    (∀ {α : Type*} [Inhabited α] (interp : δ → List α → α) (env : ℕ → α),
      (substituteFuns name subList astNode).eval interp env =
        astNode.eval (templateInterp name subList interp) env) ∧
    substituteFuns name subList astNode = plainSubstitute name subList astNode ∧
    (TargetFree name subList astNode → substituteFuns name subList astNode = astNode) := by
  rw [substituteFuns_eq_plain]
  refine ⟨targetFree_plainSubstitute htemplates astNode, ?_, rfl, plainSubstitute_of_targetFree⟩
  intro α _ interp env
  exact eval_plainSubstitute htemplates interp env hnode

/-- `neg(neg(x)) & neg(x)`, with the negation as an exclusive or with a constant. -/
theorem substituteFuns_correct_neg :
    let subList : SubstituteList String := [("fpneg16", .app "bvxor" [mkBoundVar 0, .app "c" []])]
    let neg (t : Term String) : Term String := .app "fpneg16" [t]
    let xor (t : Term String) : Term String := .app "bvxor" [t, .app "c" []]
    let x : Term String := .app "x" []
    substituteFuns id subList (.app "and" [neg (neg x), neg x]) =
        .app "and" [xor (xor x), xor x] ∧
      TargetFree id subList (substituteFuns id subList (.app "and" [neg (neg x), neg x])) := by
  intro subList neg xor x
  let arity (decl : String) : ℕ :=
    if decl = "fpneg16" then 1 else if decl = "bvxor" ∨ decl = "and" then 2 else 0
  have htemplates : Templates id arity subList := by
    constructor
    · simp [subList, TargetFree, mkBoundVar, Term.every_app, Term.every_var]
    · simp [subList, arity, mkBoundVar, Term.every_app, Term.every_var]
  have hnode : WellFormed arity (.app "and" [neg (neg x), neg x]) := by
    simp [WellFormed, neg, x, arity, Term.every_app]
  have h := substituteFuns_correct.{0, 0} id arity subList htemplates _ hnode
  refine ⟨?_, h.1⟩
  rw [h.2.2.1]
  decide

end ArmSmeIla
