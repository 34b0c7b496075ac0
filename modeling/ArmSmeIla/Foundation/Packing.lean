import Mathlib.Algebra.BigOperators.Group.Finset.Basic
import Mathlib.Data.List.Range
import Mathlib.Tactic.Ring

/-!
# Bit-vectors as packed elements

A bit-vector of width `n * e` is read as `n` elements of `e` bits, element 0
being the least significant one. This file is independent of any machine: it
says how concatenation, nested reads and element reversal look from the point
of view of one element, which is the only view the rest of the development
uses.
-/

namespace Packing

variable {w e : ℕ}

/-- Element `i` (from the least significant end) of `e` bits. -/
def elem (v : BitVec w) (i e : ℕ) : BitVec e := v.extractLsb' (i * e) e

theorem getLsbD_elem (v : BitVec w) (i e j : ℕ) :
    (elem v i e).getLsbD j = (decide (j < e) && v.getLsbD (i * e + j)) := by
  simp [elem]

/-- Two elements are equal when the bits they are read from are. -/
theorem elem_congr {w' : ℕ} {v : BitVec w} {v' : BitVec w'} {i i' : ℕ}
    (h : ∀ j < e, v.getLsbD (i * e + j) = v'.getLsbD (i' * e + j)) :
    elem v i e = elem v' i' e := by
  apply BitVec.eq_of_getLsbD_eq
  intro j hj
  rw [getLsbD_elem, getLsbD_elem, h j hj]

theorem elem_cast {w' : ℕ} (h : w = w') (v : BitVec w) (i e : ℕ) :
    elem (v.cast h) i e = elem v i e := by
  subst h
  rfl

@[simp]
theorem elem_zero_vector (i e : ℕ) : elem (0#w) i e = 0#e := by
  simp [elem]

theorem elem_self (v : BitVec e) : elem v 0 e = v := by
  simp [elem]

/-- Element `i < n` ends within `n` elements. -/
theorem offset_next_le {n i : ℕ} (hi : i < n) (e : ℕ) : i * e + e ≤ n * e := by
  rw [← Nat.succ_mul]
  exact Nat.mul_le_mul_right e hi

/-- The last one ends where they do. -/
theorem offset_last {n : ℕ} (hn : 0 < n) (e : ℕ) : (n - 1) * e + e = n * e := by
  rw [← Nat.succ_mul, Nat.succ_eq_add_one, Nat.sub_add_cancel hn]

/-- Offset `j` inside element `i < n` stays below `n` elements. -/
theorem offset_lt {n i j : ℕ} (hi : i < n) (hj : j < e) : i * e + j < n * e := by
  calc i * e + j < i * e + e := by omega
    _ ≤ n * e := offset_next_le hi e

theorem offset_div {i j : ℕ} (hj : j < e) : (i * e + j) / e = i := by
  rw [Nat.mul_comm, Nat.mul_add_div (Nat.zero_lt_of_lt hj), Nat.div_eq_of_lt hj, Nat.add_zero]

/-- Positional notation is unambiguous. -/
theorem offset_inj {i j i' j' : ℕ} (hj : j < e) (hj' : j' < e)
    (h : i * e + j = i' * e + j') : i = i' ∧ j = j' := by
  have hdiv := congrArg (· / e) h
  simp only [offset_div hj, offset_div hj'] at hdiv
  subst hdiv
  exact ⟨rfl, Nat.add_left_cancel h⟩

/-- Counting from the other end mirrors both the element and the offset. -/
theorem offset_mirror {n i j : ℕ} (hi : i < n) (hj : j < e) :
    n * e - 1 - (i * e + j) = (n - 1 - i) * e + (e - 1 - j) := by
  obtain ⟨k, rfl⟩ := Nat.exists_eq_add_of_lt hi
  have hsplit : (i + k + 1) * e = i * e + k * e + e := by ring
  rw [show i + k + 1 - 1 - i = k by omega]
  omega

/-- Vectors with the same elements are equal. -/
theorem ext_elem {n : ℕ} (hw : w = n * e) {v v' : BitVec w}
    (h : ∀ i < n, elem v i e = elem v' i e) : v = v' := by
  subst hw
  apply BitVec.eq_of_getLsbD_eq
  intro j hj
  have he : 0 < e := by
    rcases Nat.eq_zero_or_pos e with rfl | he
    · simp at hj
    · exact he
  have hi : j / e < n := Nat.div_lt_of_lt_mul (by rwa [Nat.mul_comm])
  have hb := congrArg (fun x : BitVec e => x.getLsbD (j % e)) (h (j / e) hi)
  simpa only [getLsbD_elem, Nat.mod_lt j he, decide_true, Bool.true_and,
    Nat.div_add_mod'] using hb

/-- Reading a small element out of a large one is one read. -/
theorem elem_elem (v : BitVec w) (i n j : ℕ) (hj : j < n) :
    elem (elem v i (n * e)) j e = elem v (i * n + j) e := by
  apply elem_congr
  intro k hk
  have hidx : i * (n * e) + (j * e + k) = (i * n + j) * e + k := by ring
  rw [getLsbD_elem, hidx, decide_eq_true (offset_lt hj hk), Bool.true_and]

/-- A vector is the sum of its elements, each at the weight of its place. -/
theorem toNat_eq_sum_elem {n : ℕ} (hw : w = n * e) (v : BitVec w) :
    v.toNat = ∑ i ∈ Finset.range n, (elem v i e).toNat * 2 ^ (i * e) := by
  have hlow : ∀ k, v.toNat % 2 ^ (k * e) =
      ∑ i ∈ Finset.range k, (elem v i e).toNat * 2 ^ (i * e) := by
    intro k
    induction k with
    | zero => rw [Nat.zero_mul, pow_zero, Nat.mod_one, Finset.sum_range_zero]
    | succ k ih =>
        rw [Finset.sum_range_succ, ← ih, Nat.succ_mul, pow_add, Nat.mod_mul, elem,
          BitVec.extractLsb'_toNat, Nat.shiftRight_eq_div_pow, Nat.mul_comm (2 ^ (k * e))]
  rw [← hlow n, ← hw, Nat.mod_eq_of_lt v.isLt]

/-! ## Concatenation -/

theorem elem_append_low {w' : ℕ} (x : BitVec w') (y : BitVec w) {k i : ℕ}
    (hw : w = k * e) (hi : i < k) : elem (x ++ y) i e = elem y i e := by
  subst hw
  apply elem_congr
  intro j hj
  rw [BitVec.getLsbD_append, if_pos (offset_lt hi hj)]

theorem elem_append_high {w' : ℕ} (x : BitVec w') (y : BitVec w) {k : ℕ}
    (hw : w = k * e) (i : ℕ) : elem (x ++ y) (k + i) e = elem x i e := by
  subst hw
  apply elem_congr
  intro j _
  have hidx : (k + i) * e + j = k * e + (i * e + j) := by ring
  rw [BitVec.getLsbD_append, hidx, if_neg (by omega), Nat.add_sub_cancel_left]

/-- Append a list of elements on the right, one after the other. -/
def appendAll : {w : ℕ} → BitVec w → (l : List (BitVec e)) → BitVec (w + l.length * e)
  | _, acc, [] => acc.cast (by simp)
  | _, acc, x :: xs => (appendAll (acc ++ x) xs).cast (by simp only [List.length_cons]; ring)

/-- Put a list of elements on the left, one after the other. -/
def prependAll : {w : ℕ} → BitVec w → (l : List (BitVec e)) → BitVec (w + l.length * e)
  | _, acc, [] => acc.cast (by simp)
  | _, acc, x :: xs => (prependAll (x ++ acc) xs).cast (by simp only [List.length_cons]; ring)

theorem elem_appendAll_acc (acc : BitVec w) (l : List (BitVec e)) (i : ℕ) :
    elem (appendAll acc l) (l.length + i) e = elem acc i e := by
  induction l generalizing w i with
  | nil => simp [appendAll, elem_cast]
  | cons x xs ih =>
      have hidx : (x :: xs).length + i = xs.length + (1 + i) := by
        simp only [List.length_cons]
        omega
      rw [appendAll, elem_cast, hidx, ih (acc ++ x) (1 + i)]
      exact elem_append_high acc x (by ring) i

theorem getElem_cons_mirror {α : Type*} (x : α) (xs : List α) {i : ℕ} (hi : i < xs.length)
    (hi' : (x :: xs).length - 1 - i < (x :: xs).length) :
    (x :: xs)[(x :: xs).length - 1 - i] = xs[xs.length - 1 - i] := by
  have hidx : (x :: xs).length - 1 - i = (xs.length - 1 - i) + 1 := by
    simp only [List.length_cons]
    omega
  simp only [hidx, List.getElem_cons_succ]

/-- After appending, the last list entry is element 0. -/
theorem elem_appendAll (acc : BitVec w) (l : List (BitVec e)) {i : ℕ} (hi : i < l.length) :
    elem (appendAll acc l) i e = l[l.length - 1 - i] := by
  induction l generalizing w i with
  | nil => simp at hi
  | cons x xs ih =>
      rw [appendAll, elem_cast]
      by_cases h : i < xs.length
      · rw [ih (acc ++ x) h]
        exact (getElem_cons_mirror x xs h _).symm
      · have hi' : i = xs.length + 0 := by
          simp only [List.length_cons] at hi
          omega
        subst hi'
        rw [elem_appendAll_acc, elem_append_low acc x (by ring) Nat.one_pos, elem_self]
        simp

theorem elem_prependAll_acc (acc : BitVec w) (l : List (BitVec e)) {k i : ℕ}
    (hw : w = k * e) (hi : i < k) : elem (prependAll acc l) i e = elem acc i e := by
  induction l generalizing w k with
  | nil => simp [prependAll, elem_cast]
  | cons x xs ih =>
      have hw' : e + w = (k + 1) * e := by rw [hw]; ring
      rw [prependAll, elem_cast, ih (x ++ acc) hw' (Nat.lt_succ_of_lt hi)]
      exact elem_append_low x acc hw hi

/-- Above the accumulator, the list entries appear in list order. -/
theorem elem_prependAll (acc : BitVec w) (l : List (BitVec e)) {k i : ℕ}
    (hw : w = k * e) (hi : i < l.length) : elem (prependAll acc l) (k + i) e = l[i] := by
  induction l generalizing w k i with
  | nil => simp at hi
  | cons x xs ih =>
      have hw' : e + w = (k + 1) * e := by rw [hw]; ring
      rw [prependAll, elem_cast]
      cases i with
      | zero =>
          rw [elem_prependAll_acc (x ++ acc) xs (i := k + 0) hw' (Nat.lt_succ_self k),
            elem_append_high x acc hw 0, elem_self]
          rfl
      | succ i =>
          have hi' : i < xs.length := by simpa using hi
          have hidx : k + (i + 1) = (k + 1) + i := by omega
          rw [hidx, ih (x ++ acc) hw' hi']
          rfl

/-! A loop that starts from element 0 and adds elements `1 … n - 1` on one side. -/

theorem elem_appendAll_range (f : ℕ → BitVec e) {n i : ℕ} (hi : i < n) :
    elem (appendAll (f 0) ((List.range' 1 (n - 1)).map f)) i e = f (n - 1 - i) := by
  have hlen : ((List.range' 1 (n - 1)).map f).length = n - 1 := by simp
  by_cases h : i < n - 1
  · rw [elem_appendAll _ _ (by rwa [hlen]), List.getElem_map, List.getElem_range']
    congr 1
    simp only [hlen]
    omega
  · have hlast : i = ((List.range' 1 (n - 1)).map f).length + 0 := by omega
    rw [hlast, elem_appendAll_acc, elem_self, hlen]
    congr 1
    omega

theorem elem_prependAll_range (f : ℕ → BitVec e) {n i : ℕ} (hi : i < n) :
    elem (prependAll (f 0) ((List.range' 1 (n - 1)).map f)) i e = f i := by
  cases i with
  | zero => rw [elem_prependAll_acc _ _ (k := 1) (by ring) Nat.one_pos, elem_self]
  | succ i =>
      have hlen : i < ((List.range' 1 (n - 1)).map f).length := by
        simp only [List.length_map, List.length_range']
        omega
      rw [Nat.add_comm i 1, elem_prependAll (k := 1) _ _ (by ring) hlen, List.getElem_map,
        List.getElem_range', Nat.one_mul]

/-- `elements[0] ++ elements[1] ++ …`: the first entry is most significant. -/
def concat : (l : List (BitVec e)) → BitVec (l.length * e)
  | [] => 0#_
  | x :: xs => (appendAll x xs).cast (by simp only [List.length_cons]; ring)

theorem elem_concat (l : List (BitVec e)) {i : ℕ} (hi : i < l.length) :
    elem (concat l) i e = l[l.length - 1 - i] := by
  cases l with
  | nil => simp at hi
  | cons x xs =>
      rw [concat, elem_cast]
      by_cases h : i < xs.length
      · rw [elem_appendAll x xs h]
        exact (getElem_cons_mirror x xs h _).symm
      · have hi' : i = xs.length + 0 := by
          simp only [List.length_cons] at hi
          omega
        subst hi'
        rw [elem_appendAll_acc, elem_self]
        simp

theorem elem_concat_reverse (l : List (BitVec e)) {i : ℕ} (hi : i < l.length) :
    elem (concat l.reverse) i e = l[i] := by
  rw [elem_concat _ (by simpa using hi), List.getElem_reverse]
  congr 1
  simp only [List.length_reverse]
  omega

end Packing
