import ArmSmeIla.Model.Expressions
import ArmSmeIla.Model.Vectors

/-!
# Two ways to rebuild a vector

Setting every element in turn, and `Concatenate` on the reversed list of
elements. The helpers on expressions succeed at matching widths and return
what the typed helpers do; there, both ways have the same elements.
-/

namespace ArmSmeIla

open Packing

variable {w e n : ℕ}

/-! ## Typed vectors -/

/-- The two ways agree, whatever the loop starts from. -/
theorem concatenateFromLSB_eq_foldl (he : 0 < e) (h : n * e = w) (f : ℕ → BitVec e)
    (vector : BitVec w) :
    concatenateFromLSB h f =
      (List.range n).foldl (fun vector i => setElementInVectorFromLSB vector i e (f i)) vector := by
  apply ext_elem h.symm
  intro i hi
  rw [elem_concatenateFromLSB h f hi]
  exact (elem_foldl_setElement h.symm he (fun i _ => f i) vector hi).symm

theorem foldl_setElement_eq_concatenate (he : 0 < e) (elements : List (BitVec e))
    (vector : BitVec w) (hw : elements.reverse.length * e = w) :
    elements.zipIdx.foldl (fun vector p => setElementInVectorFromLSB vector p.2 e p.1) vector =
      (concatenate elements.reverse).cast hw := by
  rcases Loops.exists_map_range elements with ⟨f, n, rfl⟩
  have h : n * e = w := by simpa using hw
  rw [Loops.zipIdx_map_range, List.foldl_map]
  exact (concatenateFromLSB_eq_foldl he h f vector).symm

/-- The masking loop that the README shows, which sets one element at a time,
computes what its replacement does. -/
theorem maskWithSinglePredicate_eq_foldl {m : ArmSme} (source dest : BitVec m.svl)
    (esize : ElementSize) (mask : BitVec m.pRegWidth) (isZeroMode : Bool) :
    maskWithSinglePredicate source dest esize mask isZeroMode =
      (List.range (m.dim esize)).foldl (fun result i =>
        setElementInVectorFromLSB result i esize.bits
          (if isActivated mask i esize.bits then getElementInVectorFromLSB source i esize.bits
          else if isZeroMode then 0 else getElementInVectorFromLSB dest i esize.bits)) 0 := by
  rw [← concatenateFromLSB_eq_foldl esize.bits_pos (m.dim_mul_bits esize)]
  unfold maskWithSinglePredicate
  cases isZeroMode <;> rfl

/-! ## Expressions -/

namespace BvExpr

theorem mk_cast {w' : ℕ} (h : w = w') (v : BitVec w) : BvExpr.mk w' (v.cast h) = ⟨w, v⟩ := by
  subst h
  rfl

theorem mk_setWidth {w' : ℕ} (h : w = w') (v : BitVec w) :
    BvExpr.mk w' (v.setWidth w') = ⟨w, v⟩ := by
  subst h
  rw [BitVec.setWidth_eq]

/-- A range of `k` bits inside the vector has `k` bits. -/
theorem extract_mk (v : BitVec w) {hi lo k : ℕ} (hk : 0 < k) (hhi : hi + 1 = lo + k)
    (hlt : hi < w) : extract ⟨w, v⟩ hi lo = .ok ⟨k, v.extractLsb' lo k⟩ := by
  obtain rfl : k = hi - lo + 1 := by omega
  exact if_pos ⟨by omega, hlt⟩

theorem foldl_concat_mk (acc : BitVec w) (elements : List (BitVec e)) :
    (elements.map (BvExpr.mk e)).foldl concat ⟨w, acc⟩ =
      ⟨w + elements.length * e, appendAll acc elements⟩ := by
  induction elements generalizing w with
  | nil => exact (mk_cast _ acc).symm
  | cons x xs ih =>
      show (xs.map (BvExpr.mk e)).foldl concat ⟨w + e, acc ++ x⟩ = _
      rw [ih, appendAll, mk_cast]

theorem concatenate_mk {elements : List (BitVec e)} (hne : elements ≠ []) :
    concatenate (elements.map (BvExpr.mk e)) =
      .ok ⟨elements.length * e, ArmSmeIla.concatenate elements⟩ := by
  cases elements with
  | nil => exact absurd rfl hne
  | cons x xs =>
      show Except.ok ((xs.map (BvExpr.mk e)).foldl concat ⟨e, x⟩) = _
      rw [foldl_concat_mk, ArmSmeIla.concatenate, Packing.concat, mk_cast]

section Elements

variable (hw : w = n * e) (he : 0 < e) (vector : BitVec w) {i : ℕ} (hi : i < n)

include hw he hi

theorem getElementInVectorFromLSB_mk :
    getElementInVectorFromLSB ⟨w, vector⟩ i e =
      .ok ⟨e, ArmSmeIla.getElementInVectorFromLSB vector i e⟩ := by
  have hlast := offset_lt hi (Nat.sub_lt he Nat.one_pos)
  exact extract_mk vector he (by omega) (by omega)

/-- In all four cases the width of the result is that of the vector. -/
theorem setElementInVectorFromLSB_mk (x : BitVec e) :
    setElementInVectorFromLSB ⟨w, vector⟩ i e ⟨e, x⟩ w =
      .ok ⟨w, ArmSmeIla.setElementInVectorFromLSB vector i e x⟩ := by
  have hdiv : w / e = n := by rw [hw, Nat.mul_div_cancel n he]
  have hupper : i * e + e ≤ w := hw ▸ offset_next_le hi e
  simp only [setElementInVectorFromLSB, ArmSmeIla.setElementInVectorFromLSB, hdiv]
  rw [if_neg (by omega)]
  by_cases hone : n = 1
  · rw [if_pos hone, if_pos hone, mk_setWidth (by rw [hw, hone, Nat.one_mul])]
  rw [if_neg hone, if_neg hone]
  by_cases hlast : i = n - 1
  · have htop : i * e + e = w := by rw [hw, hlast, offset_last (by omega)]
    have hbelow : 0 < i * e := Nat.mul_pos (by omega) he
    rw [if_pos hlast, if_pos hlast, extract_mk vector hbelow (by omega) (by omega),
      mk_setWidth (by omega)]
    rfl
  rw [if_neg hlast, if_neg hlast]
  have habove : i * e + e < w := by
    rw [hw, ← Nat.succ_mul]
    exact Nat.mul_lt_mul_of_pos_right (by omega) he
  by_cases hzero : i = 0
  · subst hzero
    rw [Nat.zero_mul, Nat.zero_add] at habove ⊢
    rw [if_pos rfl, if_pos rfl, extract_mk vector (k := w - e) (by omega) (by omega) (by omega),
      mk_setWidth (by omega)]
    rfl
  · have hbelow : 0 < i * e := Nat.mul_pos (by omega) he
    rw [if_neg hzero, if_neg hzero,
      extract_mk vector (k := w - (i * e + e)) (by omega) (by omega) (by omega),
      mk_setWidth (by omega)]
    show (extract ⟨w, vector⟩ (i * e - 1) 0 >>= _) = _
    rw [extract_mk vector hbelow (by omega) (by omega)]
    rfl

end Elements

/-- Expressions of one width are typed vectors. -/
theorem exists_map_mk {elements : List BvExpr} (h : ∀ x ∈ elements, x.bitWidth = e) :
    ∃ xs : List (BitVec e), elements = xs.map (BvExpr.mk e) := by
  induction elements with
  | nil => exact ⟨[], rfl⟩
  | cons x elements ih =>
      rcases ih fun y hy => h y (List.mem_cons_of_mem x hy) with ⟨xs, rfl⟩
      rcases x with ⟨width, x⟩
      obtain rfl : width = e := h _ List.mem_cons_self
      exact ⟨x :: xs, rfl⟩

/-- The loop over the elements succeeds, and does what the typed one does. -/
theorem foldlM_setElement_mk (he : 0 < e) (elements : List (BitVec e))
    (hw : w = elements.length * e) (vector : BitVec w) :
    (elements.map (BvExpr.mk e)).zipIdx.foldlM
        (fun vector p => setElementInVectorFromLSB vector p.2 e p.1 w) ⟨w, vector⟩ =
      .ok ⟨w, elements.zipIdx.foldl
        (fun vector p => ArmSmeIla.setElementInVectorFromLSB vector p.2 e p.1) vector⟩ := by
  rw [List.zipIdx_map, List.foldlM_map]
  refine Loops.foldlM_ok (BvExpr.mk w) ?_ vector
  rintro ⟨x, i⟩ hmem vector
  have hi := (List.getElem?_eq_some_iff.mp (List.mk_mem_zipIdx_iff_getElem?.mp hmem)).1
  exact setElementInVectorFromLSB_mk hw he vector hi x

/-- Getting and setting are lawful and keep the widths, from either end; and
setting all elements of a list, in any vector, is `Concatenate` on its reverse. -/
theorem vector_rebuild_exact (w e : ℕ) (hdvd : e ∣ w) (hn : 1 ≤ w / e) :
    (∀ vector : BvExpr, vector.bitWidth = w → ∀ i < w / e,
      (∃ old, getElementInVectorFromLSB vector i e = .ok old ∧ old.bitWidth = e) ∧
      getElementInVectorFromMSB vector i e w =
        getElementInVectorFromLSB vector (w / e - 1 - i) e ∧
      ∀ x : BvExpr, x.bitWidth = e →
        setElementInVectorFromMSB vector i e x w =
          setElementInVectorFromLSB vector (w / e - 1 - i) e x w ∧
        ∃ result, setElementInVectorFromLSB vector i e x w = .ok result ∧
          result.bitWidth = w ∧
          ∀ j < w / e, getElementInVectorFromLSB result j e =
            if j = i then .ok x else getElementInVectorFromLSB vector j e) ∧
    ∀ elements : List BvExpr, elements.length = w / e → (∀ x ∈ elements, x.bitWidth = e) →
      ∃ result, concatenate elements.reverse = .ok result ∧ result.bitWidth = w ∧
        ∀ vector : BvExpr, vector.bitWidth = w →
          elements.zipIdx.foldlM
            (fun vector p => setElementInVectorFromLSB vector p.2 e p.1 w) vector =
              .ok result := by
  have he : 0 < e := Nat.pos_of_ne_zero fun h => by simp [h] at hn
  have hw : w = w / e * e := (Nat.div_mul_cancel hdvd).symm
  constructor
  · rintro ⟨_, vector⟩ rfl i hi
    refine ⟨⟨_, getElementInVectorFromLSB_mk hw he vector hi, rfl⟩, rfl, ?_⟩
    rintro ⟨_, x⟩ rfl
    refine ⟨if_neg (by omega), _, setElementInVectorFromLSB_mk hw he vector hi x, rfl, ?_⟩
    intro j hj
    rw [getElementInVectorFromLSB_mk hw he _ hj, getElementInVectorFromLSB_mk hw he _ hj,
      getElementInVectorFromLSB_eq, elem_setElementInVectorFromLSB hw he vector hi hj]
    by_cases h : j = i
    · rw [if_pos h, if_pos h]
    · rw [if_neg h, if_neg h]
      rfl
  · intro elements hlen hwidths
    rcases exists_map_mk hwidths with ⟨xs, rfl⟩
    rw [List.length_map] at hlen
    have hne : xs.reverse ≠ [] := by
      intro h
      rw [List.reverse_eq_nil_iff.mp h, List.length_nil] at hlen
      omega
    have hrev : xs.reverse.length * e = w := by rw [List.length_reverse, hlen, ← hw]
    refine ⟨⟨_, ArmSmeIla.concatenate xs.reverse⟩, ?_, hrev, ?_⟩
    · rw [← List.map_reverse, concatenate_mk hne]
    · rintro ⟨_, vector⟩ rfl
      rw [foldlM_setElement_mk he xs (hlen ▸ hw), foldl_setElement_eq_concatenate he xs vector hrev,
        mk_cast]

/-- A byte in the middle of three, and a vector of a single byte. -/
theorem vector_rebuild_exact_bytes :
    (∃ result, setElementInVectorFromLSB ⟨24, 0xAABBCC⟩ 1 8 ⟨8, 0x11⟩ 24 = .ok result ∧
      getElementInVectorFromLSB result 1 8 = .ok ⟨8, 0x11⟩ ∧
      getElementInVectorFromLSB result 2 8 = .ok ⟨8, 0xAA⟩) ∧
    ∃ result, concatenate [⟨8, 0x11⟩] = .ok result ∧
      setElementInVectorFromLSB ⟨8, 0xAA⟩ 0 8 ⟨8, 0x11⟩ 8 = .ok result := by
  constructor
  · rcases ((vector_rebuild_exact 24 8 (by decide) (by decide)).1 ⟨24, 0xAABBCC⟩ rfl 1
      (by decide)).2.2 ⟨8, 0x11⟩ rfl with ⟨_, result, hset, _, hget⟩
    exact ⟨result, hset, hget 1 (by decide), hget 2 (by decide)⟩
  · rcases (vector_rebuild_exact 8 8 (by decide) (by decide)).2 [⟨8, 0x11⟩] rfl (by decide) with
      ⟨result, hconcat, _, hloop⟩
    exact ⟨result, hconcat, hloop ⟨8, 0xAA⟩ rfl⟩

end BvExpr

end ArmSmeIla
