import Mathlib.Data.List.Induction
import Mathlib.Tactic.TypeStar

/-!
# What a sequence of writes leaves

A reader of a store is hit by some of the writes to it. If one write leaves its
value where it hits and what was there where it does not, then a sequence of
writes leaves the value of the last one that hits.
-/

namespace Stores

variable {σ ω β : Type*} (hit : ω → Option β)

/-- The value of the last write that hits. -/
def lastHit (ws : List ω) : Option β := ws.reverse.findSome? hit

theorem lastHit_append_singleton (ws : List ω) (w : ω) :
    lastHit hit (ws ++ [w]) = (hit w).or (lastHit hit ws) := by
  have hone : [w].findSome? hit = hit w := by cases h : hit w <;> simp [h]
  rw [lastHit, List.reverse_append, List.reverse_singleton, List.findSome?_append, hone]
  rfl

variable {hit}

theorem read_foldl (write : σ → ω → σ) (read : σ → β)
    (h : ∀ s w, read (write s w) = (hit w).getD (read s)) (s : σ) (ws : List ω) :
    read (ws.foldl write s) = (lastHit hit ws).getD (read s) := by
  induction ws using List.reverseRecOn with
  | nil => rfl
  | append_singleton ws w ih =>
      rw [List.foldl_append, lastHit_append_singleton]
      show read (write (ws.foldl write s) w) = _
      rw [h, ih]
      cases hit w <;> rfl

end Stores
