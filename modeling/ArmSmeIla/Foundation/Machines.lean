import ArmSmeIla.Foundation.Runs
import Mathlib.Data.List.FinRange
import Mathlib.Data.List.Sort
import Mathlib.Data.Set.Basic

/-!
# Machines over locations

A machine whose state is a family of locations, and whose guarded actions come
with the locations they read, write and overwrite. What the tables of an
instruction set say about one action is turned here into two facts about whole
runs: programs that order dependent actions alike have the same runs, and an
action that writes nothing that is still needed can be left out.
-/

/-- Deterministic guarded actions on a family of locations. An action may
`write` a location in a way that depends on its old value; if it does not, it
`kills` that value. -/
structure Machine (σ ι Loc : Type*) (Val : Loc → Type*) where
  get : (l : Loc) → σ → Val l
  act : ι → σ → σ
  enabled : ι → σ → Prop
  reads : ι → Set Loc
  writes : ι → Set Loc
  kills : ι → Set Loc
  ext : ∀ {s t}, (∀ l, get l s = get l t) → s = t
  frame : ∀ {i l} s, l ∉ writes i → get l (act i s) = get l s
  guarded : ∀ {i s t}, (∀ r ∈ reads i, get r s = get r t) → enabled i s → enabled i t
  determined : ∀ {i l s t}, (∀ r ∈ reads i, get r s = get r t) →
    (l ∉ kills i → get l s = get l t) → get l (act i s) = get l (act i t)

namespace Machine

variable {σ ι Loc : Type*} {Val : Loc → Type*} (M : Machine σ ι Loc Val)

def Step (s : σ) (i : ι) (t : σ) : Prop := M.enabled i s ∧ t = M.act i s

variable {M} {s t : σ} {i j : ι} {xs : List ι}

theorem run_cons_iff :
    Runs M.Step s (i :: xs) t ↔ M.enabled i s ∧ Runs M.Step (M.act i s) xs t := by
  constructor
  · intro h
    cases h with
    | cons hstep rest =>
        rcases hstep with ⟨hen, rfl⟩
        exact ⟨hen, rest⟩
  · rintro ⟨hen, rest⟩
    exact .cons ⟨hen, rfl⟩ rest

/-! ## Independent actions -/

variable (M) in
/-- Neither action writes what the other reads, and where both write the two
updates commute. -/
structure Independent (i j : ι) : Prop where
  left : ∀ l ∈ M.writes i, l ∉ M.reads j
  right : ∀ l ∈ M.writes j, l ∉ M.reads i
  both : ∀ l ∈ M.writes i, l ∈ M.writes j →
    ∀ s, M.get l (M.act j (M.act i s)) = M.get l (M.act i (M.act j s))

theorem Independent.symm (h : M.Independent i j) : M.Independent j i where
  left := h.right
  right := h.left
  both := fun l hj hi s => (h.both l hi hj s).symm

/-- The operands of an action survive an independent one. -/
theorem Independent.operands (h : M.Independent i j) (s : σ) :
    ∀ r ∈ M.reads j, M.get r (M.act i s) = M.get r s :=
  fun _ hr => M.frame s fun hw => h.left _ hw hr

theorem Independent.enabled_iff (h : M.Independent i j) (s : σ) :
    M.enabled j (M.act i s) ↔ M.enabled j s :=
  ⟨M.guarded (h.operands s), M.guarded fun r hr => (h.operands s r hr).symm⟩

/-- A location that only the first action writes. -/
theorem Independent.get_left (h : M.Independent i j) {l : Loc} (hj : l ∉ M.writes j) (s : σ) :
    M.get l (M.act j (M.act i s)) = M.get l (M.act i (M.act j s)) := by
  have hlast : M.get l (M.act j (M.act i s)) = M.get l (M.act i s) := M.frame _ hj
  have hfirst : M.get l (M.act i (M.act j s)) = M.get l (M.act i s) :=
    M.determined (h.symm.operands s) fun _ => M.frame s hj
  rw [hlast, hfirst]

theorem Independent.commute (h : M.Independent i j) (s : σ) :
    M.act j (M.act i s) = M.act i (M.act j s) := by
  apply M.ext
  intro l
  by_cases hj : l ∈ M.writes j
  · by_cases hi : l ∈ M.writes i
    · exact h.both l hi hj s
    · exact (h.symm.get_left hi s).symm
  · exact h.get_left hj s

theorem Independent.run_swap (h : M.Independent i j) :
    Runs M.Step s (i :: j :: xs) t ↔ Runs M.Step s (j :: i :: xs) t := by
  rw [run_cons_iff, run_cons_iff, run_cons_iff, run_cons_iff, h.enabled_iff, h.symm.enabled_iff,
    h.commute, and_left_comm]

/-! ## Schedules -/

section Schedules

variable {κ : Type*} [LinearOrder κ] (p : κ → ι)

/-- An action moves over the independent ones to its place in program order. -/
theorem run_orderedInsert_iff {a : κ} {bs : List κ}
    (h : ∀ b ∈ bs, M.Independent (p a) (p b) ∨ a < b) :
    Runs M.Step s ((a :: bs).map p) t ↔
      Runs M.Step s ((bs.orderedInsert (· ≤ ·) a).map p) t := by
  induction bs generalizing s with
  | nil => exact Iff.rfl
  | cons b bs ih =>
      rw [List.orderedInsert_cons]
      split
      · exact Iff.rfl
      case isFalse hle =>
        rcases h b List.mem_cons_self with hind | hlt
        · refine hind.run_swap.trans ?_
          show Runs M.Step s (p b :: (a :: bs).map p) t ↔ _
          rw [List.map_cons (l := bs.orderedInsert _ a), run_cons_iff, run_cons_iff]
          exact and_congr_right' (ih fun c hc => h c (List.mem_cons_of_mem b hc))
        · exact absurd hlt.le hle

/-- Of two dependent actions the earlier one in program order comes first in
the schedule: then sorting the schedule keeps its runs. -/
theorem run_insertionSort_iff {schedule : List κ}
    (h : schedule.Pairwise fun a b => M.Independent (p a) (p b) ∨ a < b) :
    Runs M.Step s (schedule.map p) t ↔
      Runs M.Step s ((schedule.insertionSort (· ≤ ·)).map p) t := by
  induction h generalizing s with
  | nil => exact Iff.rfl
  | @cons a schedule hhead _ ih =>
      have hsorted : ∀ b ∈ schedule.insertionSort (· ≤ ·), M.Independent (p a) (p b) ∨ a < b :=
        fun b hb => hhead b ((List.mem_insertionSort (· ≤ ·)).mp hb)
      rw [List.insertionSort_cons, ← run_orderedInsert_iff p hsorted, List.map_cons, List.map_cons,
        run_cons_iff, run_cons_iff]
      exact and_congr_right' ih

end Schedules

/-- A schedule of a program that keeps the order of dependent actions has the
runs of the program. -/
theorem run_schedule_iff {n : ℕ} (p : Fin n → ι) {schedule : List (Fin n)}
    (perm : schedule.Perm (List.finRange n))
    (h : schedule.Pairwise fun a b => M.Independent (p a) (p b) ∨ a < b) :
    Runs M.Step s (schedule.map p) t ↔ Runs M.Step s (List.ofFn p) t := by
  have hsort : schedule.insertionSort (· ≤ ·) = List.finRange n := by
    have hsorted := List.pairwise_insertionSort (· ≤ ·) schedule
    have hrange : (List.finRange n).Pairwise (· ≤ ·) :=
      (List.pairwise_lt_finRange n).imp fun h => h.le
    exact ((List.perm_insertionSort _ schedule).trans perm).eq_of_pairwise' hsorted hrange
  rw [run_insertionSort_iff p h, hsort, List.ofFn_eq_map]

/-! ## Slices -/

section Slices

variable (M) (needed : Set Loc)

open Classical in
/-- The locations on which the needed ones depend, before a sequence. -/
noncomputable def live : List ι → Set Loc
  | [] => needed
  | i :: xs =>
      if ∃ l ∈ M.writes i, l ∈ live xs then (live xs \ M.kills i) ∪ M.reads i else live xs

open Classical in
/-- The actions that write something still needed. -/
noncomputable def slice : List ι → List ι
  | [] => []
  | i :: xs => if ∃ l ∈ M.writes i, l ∈ M.live needed xs then i :: slice xs else slice xs

variable {M needed}

/-- Before an action that is kept. -/
theorem live_cons_of_exists (h : ∃ l ∈ M.writes i, l ∈ M.live needed xs) :
    M.live needed (i :: xs) = (M.live needed xs \ M.kills i) ∪ M.reads i := if_pos h

theorem live_cons_of_not_exists (h : ¬ ∃ l ∈ M.writes i, l ∈ M.live needed xs) :
    M.live needed (i :: xs) = M.live needed xs := if_neg h

theorem slice_cons_of_exists (h : ∃ l ∈ M.writes i, l ∈ M.live needed xs) :
    M.slice needed (i :: xs) = i :: M.slice needed xs := if_pos h

theorem slice_cons_of_not_exists (h : ¬ ∃ l ∈ M.writes i, l ∈ M.live needed xs) :
    M.slice needed (i :: xs) = M.slice needed xs := if_neg h

/-- An action keeps the agreement on what still matters. -/
theorem live_act {s' : σ} (agree : ∀ l ∈ M.live needed (i :: xs), M.get l s' = M.get l s) :
    ∀ l ∈ M.live needed xs, M.get l (M.act i s') = M.get l (M.act i s) := by
  intro l hl
  by_cases hkept : ∃ l ∈ M.writes i, l ∈ M.live needed xs
  · rw [live_cons_of_exists hkept] at agree
    exact M.determined (fun r hr => agree r (Or.inr hr)) fun hk => agree l (Or.inl ⟨hl, hk⟩)
  · rw [live_cons_of_not_exists hkept] at agree
    have hw : l ∉ M.writes i := fun hw => hkept ⟨l, hw, hl⟩
    rw [M.frame s' hw, M.frame s hw]
    exact agree l hl

/-- From states that agree where it matters, the slice has a run whenever the
sequence has one, and ends with the same needed values. -/
theorem run_slice (run : Runs M.Step s xs t) {s' : σ}
    (agree : ∀ l ∈ M.live needed xs, M.get l s' = M.get l s) :
    ∃ t', Runs M.Step s' (M.slice needed xs) t' ∧ ∀ l ∈ needed, M.get l t' = M.get l t := by
  induction run generalizing s' with
  | nil s => exact ⟨s', .nil s', agree⟩
  | @cons s mid t i xs hstep _ ih =>
      obtain ⟨hen, rfl⟩ := hstep
      by_cases hkept : ∃ l ∈ M.writes i, l ∈ M.live needed xs
      · obtain ⟨t', hrun, hneeded⟩ := ih (live_act agree)
        rw [live_cons_of_exists hkept] at agree
        have hreads : ∀ r ∈ M.reads i, M.get r s' = M.get r s :=
          fun r hr => agree r (Or.inr hr)
        have hen' : M.enabled i s' := M.guarded (fun r hr => (hreads r hr).symm) hen
        rw [slice_cons_of_exists hkept]
        exact ⟨t', .cons ⟨hen', rfl⟩ hrun, hneeded⟩
      · rw [live_cons_of_not_exists hkept] at agree
        rw [slice_cons_of_not_exists hkept]
        apply ih
        intro l hl
        rw [agree l hl]
        exact (M.frame s fun hw => hkept ⟨l, hw, hl⟩).symm

end Slices

end Machine
