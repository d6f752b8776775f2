import Mathlib.LinearAlgebra.Matrix.ToLinearEquiv
import OnionNetwork.Lib.Interpolation

/-!
# Elimination and the exchange of a basis

A square matrix says how some vectors are made of others: the row `r` of `m * col` is the sum of
the vectors `col j` with the entries of the row `r` of `m` as factors. When the columns stand
for a basis, an entry is zero exactly if the other columns are enough for the vector of its row
(`mem_otherColumns_iff`). Otherwise the two may change places: the vectors of the columns are a
basis again (`det_exchange`), and the matrix that belongs to them is `pivoted`
(`pivoted_mul_exchange`). This is a round of the inversion in place.

A matrix whose rows are the values of polynomials at the nodes `v` stays one under the
operations of Gaussian elimination, which are then operations on polynomials. From the
powers `X ^ r` on no rows have to be swapped:

* `Descending.pivot`: the polynomial of row `i` is not 0 at the node `i` when its turn
  comes, since it has the nodes before as roots and no room for one more;
* `Descending.step`, `Ascending.step`: what one round downwards and one round upwards
  leave;
* `Ascending.eval_eq`: in the end the rows hold the coefficients `weightAt`.
-/

namespace OnionNetwork.Lib

open Matrix Finset

variable {ι F : Type*} [Fintype ι] [DecidableEq ι] [Field F]
  {m col : Matrix ι ι F} {u v : ι → F} {i : ι}

/-- The matrix after its row and its column `i` have changed places. -/
def pivoted (m : Matrix ι ι F) (i : ι) : Matrix ι ι F := of fun r j =>
  if r = i then
    if j = i then (m i i)⁻¹ else -((m i i)⁻¹ * m i j)
  else if j = i then m r i * (m i i)⁻¹
  else m r j - m r i * ((m i i)⁻¹ * m i j)

/-- The vectors that the columns other than `i` span. -/
def otherColumns (col : Matrix ι ι F) (i : ι) : Submodule F (ι → F) :=
  Submodule.span F (col '' {j | j ≠ i})

theorem vecMul_eq_add (v : ι → F) (col : Matrix ι ι F) (i : ι) :
    v ᵥ* col = v i • col i + ∑ j ∈ univ.erase i, v j • col j :=
  (vecMul_eq_sum v col).trans (add_sum_erase univ (fun j => v j • col j) (mem_univ i)).symm

theorem sum_erase_mem_otherColumns (v : ι → F) (col : Matrix ι ι F) (i : ι) :
    ∑ j ∈ univ.erase i, v j • col j ∈ otherColumns col i := by
  refine Submodule.sum_mem _ fun j hj => Submodule.smul_mem _ _ ?_
  exact Submodule.subset_span ⟨j, ne_of_mem_erase hj, rfl⟩

/-- **An entry is zero if the other columns are enough.** -/
theorem mem_otherColumns_iff (hcol : col.det ≠ 0) : v ᵥ* col ∈ otherColumns col i ↔ v i = 0 := by
  have hrest := sum_erase_mem_otherColumns v col i
  rw [vecMul_eq_add v col i]
  constructor
  · intro h
    by_contra hne
    have hself : col i ∈ otherColumns col i := by
      rw [← Submodule.smul_mem_iff _ hne]
      exact (Submodule.add_mem_iff_left _ hrest).mp h
    have hind : LinearIndependent F col := linearIndependent_rows_of_det_ne_zero hcol
    have hnot : i ∉ {j | j ≠ i} := fun h => h rfl
    exact hind.notMem_span_image hnot hself
  · intro h
    rw [h, zero_smul, zero_add]
    exact hrest

/-- Every vector is made of the columns. -/
theorem exists_vecMul (hcol : col.det ≠ 0) (v : ι → F) : ∃ w, w ᵥ* col = v :=
  ⟨v ᵥ* col⁻¹, by rw [vecMul_vecMul, nonsing_inv_mul _ hcol.isUnit, vecMul_one]⟩

section Dual

variable (hdual : ∀ j, j ≠ i → col j ⬝ᵥ u = 0)
include hdual

omit [DecidableEq ι] in
/-- What vanishes on the other columns vanishes on what they span. -/
theorem dot_of_mem_otherColumns (hv : v ∈ otherColumns col i) : v ⬝ᵥ u = 0 := by
  induction hv using Submodule.span_induction with
  | mem v hv =>
      obtain ⟨j, hj, rfl⟩ := hv
      exact hdual j hj
  | zero => exact zero_dotProduct u
  | add v w _ _ hv hw => rw [add_dotProduct, hv, hw, add_zero]
  | smul c v _ hv => rw [smul_dotProduct, hv, smul_zero]

/-- And on nothing else, unless it vanishes on column `i`. -/
theorem mem_otherColumns_of_dot (hcol : col.det ≠ 0) (hself : col i ⬝ᵥ u ≠ 0) (hv : v ⬝ᵥ u = 0) :
    v ∈ otherColumns col i := by
  obtain ⟨w, rfl⟩ := exists_vecMul hcol v
  have hrest : (∑ j ∈ univ.erase i, w j • col j) ⬝ᵥ u = 0 :=
    dot_of_mem_otherColumns hdual (sum_erase_mem_otherColumns w col i)
  rw [vecMul_eq_add w col i, add_dotProduct, hrest, add_zero, smul_dotProduct, smul_eq_mul] at hv
  exact (mem_otherColumns_iff hcol).mpr ((mul_eq_zero.mp hv).resolve_right hself)

end Dual

/-- A vector along column `i` has no other entries. -/
theorem vecMul_eq_smul_iff (hcol : col.det ≠ 0) (c : F) :
    v ᵥ* col = c • col i ↔ v = Pi.single i c := by
  have hsingle : Pi.single i c ᵥ* col = c • col i := by
    rw [single_vecMul]
    rfl
  constructor
  · intro h
    refine sub_eq_zero.mp (eq_zero_of_vecMul_eq_zero hcol ?_)
    rw [sub_vecMul, h, hsingle, sub_self]
  · intro h
    rw [h, hsingle]

/-- The exchange leaves a basis if the pivot is not zero. -/
theorem det_exchange (v : ι → F) (col : Matrix ι ι F) (i : ι) :
    (col.updateRow i (v ᵥ* col)).det = v i * col.det := by
  rw [vecMul_eq_sum, det_updateRow_sum, smul_eq_mul]

/-- **Pivoting is an exchange.** -/
theorem pivoted_mul_exchange (col : Matrix ι ι F) (hpivot : m i i ≠ 0) :
    pivoted m i * col.updateRow i ((m * col) i) = (m * col).updateRow i (col i) := by
  ext r t
  -- the row of the pivot, and any row, without the column `i`
  have hrow : ∀ r, (m * col) r t = m r i * col i t + ∑ j ∈ univ.erase i, m r j * col j t := by
    intro r
    rw [mul_apply, add_sum_erase _ (fun j => m r j * col j t) (mem_univ i)]
  have hrest : ∀ f : ι → F, ∑ j ∈ univ.erase i, f j * col.updateRow i ((m * col) i) j t =
      ∑ j ∈ univ.erase i, f j * col j t := by
    intro f
    refine sum_congr rfl fun j hj => ?_
    rw [updateRow_ne (ne_of_mem_erase hj)]
  rw [mul_apply, ← add_sum_erase _ _ (mem_univ i), hrest, updateRow_self, hrow i]
  by_cases hr : r = i
  · have hterms : ∑ j ∈ univ.erase i, pivoted m i r j * col j t =
        -((m i i)⁻¹ * ∑ j ∈ univ.erase i, m i j * col j t) := by
      rw [mul_sum, ← sum_neg_distrib]
      refine sum_congr rfl fun j hj => ?_
      rw [pivoted, of_apply, if_pos hr, if_neg (ne_of_mem_erase hj)]
      ring
    rw [hterms, pivoted, of_apply, if_pos hr, if_pos rfl, hr, updateRow_self]
    field_simp
    ring
  · have hterms : ∑ j ∈ univ.erase i, pivoted m i r j * col j t =
        ∑ j ∈ univ.erase i, m r j * col j t -
          m r i * ((m i i)⁻¹ * ∑ j ∈ univ.erase i, m i j * col j t) := by
      rw [mul_sum, mul_sum, ← sum_sub_distrib]
      refine sum_congr rfl fun j hj => ?_
      rw [pivoted, of_apply, if_neg hr, if_neg (ne_of_mem_erase hj)]
      ring
    rw [hterms, pivoted, of_apply, if_neg hr, if_pos rfl, updateRow_ne hr, hrow r]
    field_simp
    ring

end OnionNetwork.Lib

namespace OnionNetwork.Lib

open Polynomial Finset

variable {F : Type*} [Field F] {k i : Nat} {v : Nat → F} {p : Nat → F[X]}

/-- Before the round `i` downwards. The rows above are done: 1 at their own node, 0 at the
nodes before it. The others still have their degrees, and the nodes before `i` as roots. -/
structure Descending (k : Nat) (v : Nat → F) (i : Nat) (p : Nat → F[X]) : Prop where
  degree : ∀ r < k, (p r).degree < k
  one : ∀ r < i, (p r).eval (v r) = 1
  zero : ∀ r < i, ∀ m < r, (p r).eval (v m) = 0
  monic : ∀ r, i ≤ r → r < k → (p r).Monic
  natDegree : ∀ r, i ≤ r → r < k → (p r).natDegree = r
  roots : ∀ r, i ≤ r → r < k → ∀ m < i, (p r).eval (v m) = 0

/-- Before the round `i - 1` upwards. The rows are 1 at their own node, and 0 at the nodes
before it and at those from `i` on. -/
structure Ascending (k : Nat) (v : Nat → F) (i : Nat) (p : Nat → F[X]) : Prop where
  degree : ∀ r < k, (p r).degree < k
  one : ∀ r < k, (p r).eval (v r) = 1
  zero : ∀ r < k, ∀ m < k, m < r ∨ i ≤ m → m ≠ r → (p r).eval (v m) = 0

/-- The row of the pivot, scaled to 1. -/
noncomputable def scaled (v : Nat → F) (i : Nat) (p : Nat → F[X]) : F[X] :=
  C ((p i).eval (v i))⁻¹ * p i

/-- The round `i` downwards. -/
noncomputable def descend (v : Nat → F) (i : Nat) (p : Nat → F[X]) (r : Nat) : F[X] :=
  if r < i then p r
  else if r = i then scaled v i p
  else p r - C ((p r).eval (v i)) * scaled v i p

/-- The round `i` upwards. -/
noncomputable def ascend (v : Nat → F) (i : Nat) (p : Nat → F[X]) (r : Nat) : F[X] :=
  if r < i then p r - C ((p r).eval (v i)) * p i else p r

theorem degree_const_mul_le (c : F) (f : F[X]) : (C c * f).degree ≤ f.degree := by
  rw [← smul_eq_C_mul]
  exact degree_smul_le c f

theorem descending_powers (k : Nat) (v : Nat → F) : Descending k v 0 fun r => X ^ r where
  degree r hr := by
    rw [degree_X_pow]
    exact_mod_cast hr
  one _ hr := absurd hr (Nat.not_lt_zero _)
  zero _ hr := absurd hr (Nat.not_lt_zero _)
  monic r _ _ := monic_X_pow r
  natDegree r _ _ := natDegree_X_pow r
  roots _ _ _ _ hm := absurd hm (Nat.not_lt_zero _)

/-! ## Downwards -/

/-- **No rows are swapped.** -/
theorem Descending.pivot (h : Descending k v i p) (hv : Distinct k v) (hi : i < k) :
    (p i).eval (v i) ≠ 0 := by
  intro hroot
  have hroots : ∀ m ∈ range (i + 1), (p i).eval (v m) = 0 := by
    intro m hm
    rcases Nat.lt_or_eq_of_le (Nat.le_of_lt_succ (mem_range.mp hm)) with hlt | rfl
    · exact h.roots i le_rfl hi m hlt
    · exact hroot
  have hinj : Set.InjOn v (range (i + 1)) :=
    Set.InjOn.mono (coe_subset.mpr (range_mono hi)) hv
  have hdegree : (p i).degree < (range (i + 1)).card := by
    rw [card_range, degree_eq_natDegree (h.monic i le_rfl hi).ne_zero, h.natDegree i le_rfl hi]
    exact_mod_cast Nat.lt_succ_self i
  exact (h.monic i le_rfl hi).ne_zero 
    (eq_zero_of_degree_lt_of_eval_index_eq_zero _ hinj hdegree hroots)

section Scaled

variable (h : Descending k v i p) (hi : i < k)

include h hi

theorem eval_scaled_self (hv : Distinct k v) : (scaled v i p).eval (v i) = 1 := by
  rw [scaled, eval_mul, eval_C, inv_mul_cancel₀ (h.pivot hv hi)]

theorem eval_scaled_before {m : Nat} (hm : m < i) : (scaled v i p).eval (v m) = 0 := by
  rw [scaled, eval_mul, h.roots i le_rfl hi m hm, mul_zero]

theorem degree_scaled_lt : (scaled v i p).degree < k :=
  lt_of_le_of_lt (degree_const_mul_le _ _) (h.degree i hi)

theorem degree_multiple_lt {r : Nat} (hir : i < r) (c : F) :
    (C c * scaled v i p).degree < (r : WithBot Nat) := by
  have hrow : (p i).degree = i := by
    rw [degree_eq_natDegree (h.monic i le_rfl hi).ne_zero, h.natDegree i le_rfl hi]
  have hscaled : (scaled v i p).degree ≤ i := (degree_const_mul_le _ _).trans hrow.le
  exact lt_of_le_of_lt ((degree_const_mul_le _ _).trans hscaled) (by exact_mod_cast hir)

end Scaled

/-- **One round downwards.** -/
theorem Descending.step (h : Descending k v i p) (hv : Distinct k v) (hi : i < k) :
    Descending k v (i + 1) (descend v i p) := by
  -- rows above the pivot are done, the pivot is scaled, and below its multiples are taken off
  have habove : ∀ r < i, descend v i p r = p r := fun r hr => if_pos hr
  have hself : descend v i p i = scaled v i p := by
    rw [descend, if_neg (lt_irrefl i), if_pos rfl]
  have hbelow : ∀ r, i < r → descend v i p r = p r - C ((p r).eval (v i)) * scaled v i p := by
    intro r hr
    rw [descend, if_neg hr.not_gt, if_neg hr.ne']
  have hdegree : ∀ r, i < r → r < k → (p r).degree = r := by
    intro r hir hr
    rw [degree_eq_natDegree (h.monic r hir.le hr).ne_zero, h.natDegree r hir.le hr]
  have hless : ∀ r, i < r → r < k →
      (C ((p r).eval (v i)) * scaled v i p).degree < (p r).degree := by
    intro r hir hr
    rw [hdegree r hir hr]
    exact degree_multiple_lt h hi hir _
  refine ⟨?_, ?_, ?_, ?_, ?_, ?_⟩
  · intro r hr
    rcases Nat.lt_trichotomy r i with hlt | rfl | hgt
    · rw [habove r hlt]
      exact h.degree r hr
    · rw [hself]
      exact degree_scaled_lt h hi
    · rw [hbelow r hgt, degree_sub_eq_left_of_degree_lt (hless r hgt hr)]
      exact h.degree r hr
  · intro r hr
    rcases Nat.lt_or_eq_of_le (Nat.le_of_lt_succ hr) with hlt | rfl
    · rw [habove r hlt]
      exact h.one r hlt
    · rw [hself]
      exact eval_scaled_self h hi hv
  · intro r hr m hm
    rcases Nat.lt_or_eq_of_le (Nat.le_of_lt_succ hr) with hlt | rfl
    · rw [habove r hlt]
      exact h.zero r hlt m hm
    · rw [hself]
      exact eval_scaled_before h hi hm
  · intro r hir hr
    rw [hbelow r hir]
    exact (h.monic r (Nat.le_of_succ_le hir) hr).sub_of_left (hless r hir hr)
  · intro r hir hr
    rw [hbelow r hir, natDegree_eq_of_degree_eq (degree_sub_eq_left_of_degree_lt (hless r hir hr))]
    exact h.natDegree r (Nat.le_of_succ_le hir) hr
  · intro r hir hr m hm
    rw [hbelow r hir, eval_sub, eval_mul, eval_C]
    rcases Nat.lt_or_eq_of_le (Nat.le_of_lt_succ hm) with hlt | rfl
    · rw [h.roots r (Nat.le_of_succ_le hir) hr m hlt, eval_scaled_before h hi hlt, mul_zero,
        sub_zero]
    · rw [eval_scaled_self h hi hv, mul_one, sub_self]

/-! ## Upwards -/

theorem Descending.ascending (h : Descending k v k p) : Ascending k v k p where
  degree := h.degree
  one := h.one
  zero r hr m hm hor _ := h.zero r hr m (hor.resolve_right (not_le.mpr hm))

/-- **One round upwards.** -/
theorem Ascending.step (h : Ascending k v (i + 1) p) (hi : i < k) :
    Ascending k v i (ascend v i p) := by
  have habove : ∀ r < i, ascend v i p r = p r - C ((p r).eval (v i)) * p i := fun r hr => if_pos hr
  have hrest : ∀ r, ¬ r < i → ascend v i p r = p r := fun r hr => if_neg hr
  refine ⟨?_, ?_, ?_⟩
  · intro r hr
    by_cases hlt : r < i
    · rw [habove r hlt]
      refine lt_of_le_of_lt (degree_sub_le _ _) (max_lt (h.degree r hr) ?_)
      exact lt_of_le_of_lt (degree_const_mul_le _ _) (h.degree i hi)
    · rw [hrest r hlt]
      exact h.degree r hr
  · intro r hr
    by_cases hlt : r < i
    · rw [habove r hlt, eval_sub, eval_mul, h.one r hr,
        h.zero i hi r hr (.inl hlt) hlt.ne, mul_zero, sub_zero]
    · rw [hrest r hlt]
      exact h.one r hr
  · intro r hr m hm hor hne
    by_cases hlt : r < i
    · rw [habove r hlt, eval_sub, eval_mul, eval_C]
      by_cases hmi : m = i
      · rw [hmi, h.one i hi, mul_one, sub_self]
      · have hrow : (p r).eval (v m) = 0 := h.zero r hr m hm (by omega) hne
        have hpivot : (p i).eval (v m) = 0 := h.zero i hi m hm (by omega) hmi
        rw [hrow, hpivot, mul_zero, sub_zero]
    · rw [hrest r hlt]
      exact h.zero r hr m hm (by omega) hne

/-- **What is left are the coefficients of the values at the nodes.** -/
theorem Ascending.eval_eq (h : Ascending k v 0 p) (hv : Distinct k v) {r : Nat} (hr : r < k)
    (x : F) : (p r).eval x = weightAt k v r x := by
  rw [eval_eq_sum hv (h.degree r hr) x, sum_eq_single_of_mem r (mem_range.mpr hr), h.one r hr,
    one_mul]
  intro m hm hne
  rw [h.zero r hr m (mem_range.mp hm) (.inr (Nat.zero_le m)) hne, zero_mul]

end OnionNetwork.Lib
