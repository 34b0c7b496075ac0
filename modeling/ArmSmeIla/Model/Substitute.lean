import ArmSmeIla.Foundation.Terms
import Mathlib.Logic.Function.Basic

/-!
# Replacing uninterpreted functions

`_recursive_substitute` and `substitute_funs` (`test_helpers.cc`): a bottom-up
traversal of a Z3 expression that replaces applications of the listed functions
by a template body with its holes filled. Z3 refers to structurally identical
sub-trees as one node, so a node is a term, comparing ids is comparing terms,
and the cache is keyed by terms. Of a declaration only its name is looked at.
-/

namespace ArmSmeIla

variable {δ : Type*}

/-- `Z3_mk_bound`. -/
def mkBoundVar (idx : ℕ) : Term δ := .var idx

/-- `std::vector<std::pair<std::string, z3::expr>>`. -/
abbrev SubstituteList (δ : Type*) : Type _ := List (String × Term δ)

/-- `std::unordered_map<Z3_ast, z3::expr>`. -/
abbrev Cache (δ : Type*) : Type _ := Term δ → Option (Term δ)

variable [DecidableEq δ] (name : δ → String) (subList : SubstituteList δ)

/-- Does not overwrite. -/
def Cache.emplace (cache : Cache δ) (key result : Term δ) : Cache δ :=
  if (cache key).isSome then cache else Function.update cache key (some result)

/-- The new node for an application whose arguments have been replaced: the
filled body of the first entry with its name, the rebuilt node or the original. -/
def replaceNode (astNode : Term δ) (decl : δ) (newArgs : List (Term δ)) (argsChanged : Bool) :
    Term δ :=
  match subList.find? fun entry => entry.1 == name decl with
  | some (_, templateBody) => templateBody.instantiate newArgs
  | none => if argsChanged then .app decl newArgs else astNode

mutual

/-- Checks the cache first, and memoizes. -/
def recursiveSubstitute : Term δ → Cache δ → Term δ × Cache δ
  | .app decl args, cache =>
      match cache (.app decl args) with
      | some result => (result, cache)
      | none =>
          let (newArgs, argsChanged, cache) := substituteArgs args cache
          let result := replaceNode name subList (.app decl args) decl newArgs argsChanged
          (result, cache.emplace (.app decl args) result)
  | .var idx, cache =>
      match cache (.var idx) with
      | some result => (result, cache)
      -- not an application, hence leaf
      | none => (.var idx, cache.emplace (.var idx) (.var idx))

/-- The loop over the arguments: the new ones, and whether one has changed. -/
def substituteArgs : List (Term δ) → Cache δ → List (Term δ) × Bool × Cache δ
  | [], cache => ([], false, cache)
  | arg :: args, cache =>
      let (newArg, cache) := recursiveSubstitute arg cache
      let (newArgs, argsChanged, cache) := substituteArgs args cache
      (newArg :: newArgs, newArg != arg || argsChanged, cache)

end

/-- Starts with an empty cache. -/
def substituteFuns (astNode : Term δ) : Term δ :=
  (recursiveSubstitute name subList astNode fun _ => none).1

/-! ## Without the cache -/

mutual

/-- The same recursion without the cache. -/
def plainSubstitute : Term δ → Term δ
  | .app decl args =>
      let (newArgs, argsChanged) := plainSubstituteArgs args
      replaceNode name subList (.app decl args) decl newArgs argsChanged
  | .var idx => .var idx

def plainSubstituteArgs : List (Term δ) → List (Term δ) × Bool
  | [] => ([], false)
  | arg :: args =>
      let newArg := plainSubstitute arg
      let (newArgs, argsChanged) := plainSubstituteArgs args
      (newArg :: newArgs, newArg != arg || argsChanged)

end

end ArmSmeIla
